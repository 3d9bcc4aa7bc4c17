import Mathlib.Algebra.Order.Field.Power
import Mathlib.Tactic.FieldSimp
import Mathlib.Tactic.Linarith
import Mathlib.Tactic.Positivity
import Mathlib.Tactic.Ring
import WasmBinary.Ieee.Basic

/-! Rounding to nearest, with ties to even.

Without their signs, the patterns up to that of infinity are in the order of the numbers that they
stand for, and each number exceeds the one before by a unit in the last place. So a number can only
round to a pattern if it lies no farther than half way to the patterns before and after. -/
namespace WasmBinary.Ieee.Format

/-- The excess of the exponent field over the exponent. -/
def bias (F : Format) : Int :=
  2 ^ (F.exponentBits - 1) - 1

/-- The pattern of infinity, without its sign. -/
def infinity (F : Format) : Nat :=
  (2 ^ F.exponentBits - 1) * 2 ^ F.fractionBits

/-- The number that a pattern without a sign stands for. Infinity counts as the power of two that
would come next. -/
def size (F : Format) (b : Nat) : ℚ :=
  let fraction : ℚ := (b % 2 ^ F.fractionBits : Nat) / 2 ^ F.fractionBits
  let exponent := b / 2 ^ F.fractionBits
  if exponent = 0 then fraction * 2 ^ (1 - F.bias)
  else (1 + fraction) * 2 ^ (exponent - F.bias)

/-- The number that a pattern stands for, counted in units of its last place. -/
def significand (F : Format) (b : Nat) : Nat :=
  if b / 2 ^ F.fractionBits = 0 then b else 2 ^ F.fractionBits + b % 2 ^ F.fractionBits

/-- The exponent of the last place. The least one belongs to two values of the exponent field. -/
def place (F : Format) (b : Nat) : Int :=
  F.minExponent + (b / 2 ^ F.fractionBits - 1 : Nat)

variable (F : Format)

private theorem minExponent_eq : F.minExponent = 1 - F.bias - F.fractionBits := by
  unfold minExponent bias
  omega

theorem size_eq (b : Nat) : F.size b = F.significand b * 2 ^ F.place b := by
  have hplace (e : Int) : (2 : ℚ) ^ (e - F.fractionBits) = 2 ^ e / 2 ^ F.fractionBits := by
    rw [zpow_sub₀ (by norm_num), zpow_natCast]
  unfold size significand place
  rw [minExponent_eq]
  by_cases hsub : b / 2 ^ F.fractionBits = 0
  · have hmod : b % 2 ^ F.fractionBits = b := by
      apply Nat.mod_eq_of_lt
      exact (Nat.div_eq_zero_iff_lt (Nat.two_pow_pos _)).1 hsub
    simp only [hsub, hmod, if_true]
    have hleast : 1 - F.bias - (F.fractionBits : Int) + ((0 - 1 : Nat) : Int) =
        1 - F.bias - F.fractionBits := by simp
    rw [hleast, hplace]
    ring
  · have hpos : 1 ≤ b / 2 ^ F.fractionBits := Nat.pos_of_ne_zero hsub
    have hexponent :
        1 - F.bias - (F.fractionBits : Int) + ((b / 2 ^ F.fractionBits - 1 : Nat) : Int) =
          (b / 2 ^ F.fractionBits : Nat) - F.bias - F.fractionBits := by
      rw [Nat.cast_sub hpos]
      ring
    simp only [hsub, if_false]
    rw [hexponent, hplace]
    push_cast
    field_simp

theorem size_succ (b : Nat) : F.size (b + 1) = F.size b + 2 ^ F.place b := by
  have hpos : 0 < 2 ^ F.fractionBits := Nat.two_pow_pos _
  have hsplit := Nat.div_add_mod b (2 ^ F.fractionBits)
  rw [size_eq, size_eq, ← add_one_mul, significand, significand, place, place]
  generalize 2 ^ F.fractionBits = N at hpos hsplit ⊢
  by_cases hcarry : b % N + 1 = N
  · -- The fraction runs over, and the last place moves up unless it is the least one.
    have hnext : b + 1 = N * (b / N + 1) := by
      rw [Nat.mul_succ]
      omega
    have hdiv : (b + 1) / N = b / N + 1 := by rw [hnext, Nat.mul_div_cancel_left _ hpos]
    have hmod : (b + 1) % N = 0 := by rw [hnext, Nat.mul_mod_right]
    rw [hdiv, hmod, if_neg (Nat.succ_ne_zero _)]
    by_cases hsub : b / N = 0
    · have hlast : b + 1 = N := by rw [hnext, hsub, Nat.mul_one]
      have hone : (N : ℚ) = b + 1 := by exact_mod_cast hlast.symm
      simp [hsub, hone]
    · have hplace : F.minExponent + ((b / N + 1 - 1 : Nat) : Int) =
          F.minExponent + ((b / N - 1 : Nat) : Int) + 1 := by
        rw [Nat.add_sub_cancel, Nat.cast_sub (Nat.pos_of_ne_zero hsub)]
        ring
      have hlast : ((b % N : Nat) : ℚ) + 1 = N := by exact_mod_cast hcarry
      rw [hplace, if_neg hsub, zpow_add_one₀ (by norm_num)]
      push_cast
      rw [add_assoc, hlast]
      ring
  · have hlt : b % N < N := Nat.mod_lt b hpos
    have hnext : b + 1 = b % N + 1 + N * (b / N) := by omega
    have hdiv : (b + 1) / N = b / N := by
      rw [hnext, Nat.add_mul_div_left _ _ hpos, Nat.div_eq_of_lt (by omega), Nat.zero_add]
    have hmod : (b + 1) % N = b % N + 1 := by
      rw [hnext, Nat.add_mul_mod_self_left, Nat.mod_eq_of_lt (by omega)]
    rw [hdiv, hmod]
    by_cases hsub : b / N = 0
    · simp [hsub]
    · simp [hsub, add_assoc]

theorem strictMono_size : StrictMono F.size := by
  refine strictMono_nat_of_lt_succ fun b => ?_
  have hplace : (0 : ℚ) < 2 ^ F.place b := by positivity
  rw [size_succ]
  linarith

/-- Of all patterns up to infinity, `b` stands for the number nearest to `x`. If another one is as
near, `b` is even. -/
structure Nearest (x : ℚ) (b : Nat) : Prop where
  le_infinity : b ≤ F.infinity
  dist_le : ∀ b' ≤ F.infinity, |x - F.size b| ≤ |x - F.size b'|
  even : ∀ b' ≤ F.infinity, b' ≠ b → |x - F.size b'| = |x - F.size b| → b % 2 = 0

variable {F} {x : ℚ} {b b' : Nat}

/-- If two patterns are equally near, both are even. Then an odd one lies between them, which is
nearer. -/
theorem Nearest.not_lt (h : F.Nearest x b) (h' : F.Nearest x b') : ¬ b < b' := by
  intro hlt
  have hdist : |x - F.size b| = |x - F.size b'| :=
    le_antisymm (h.dist_le b' h'.le_infinity) (h'.dist_le b h.le_infinity)
  have heven := h.even b' h'.le_infinity (by omega) hdist.symm
  have heven' := h'.even b h.le_infinity (by omega) hdist
  have hmiddle := h.dist_le (b + 1) (by have := h'.le_infinity; omega)
  have hlow := F.strictMono_size (Nat.lt_succ_self b)
  have hhigh := F.strictMono_size (show b + 1 < b' by omega)
  have hx : x = (F.size b + F.size b') / 2 := by
    rcases abs_eq_abs.1 hdist with h | h <;> linarith
  subst hx
  rw [abs_of_nonneg (by linarith)] at hmiddle
  rcases abs_cases ((F.size b + F.size b') / 2 - F.size (b + 1)) with h | h <;> linarith

theorem Nearest.unique (h : F.Nearest x b) (h' : F.Nearest x b') : b = b' := by
  have := h.not_lt h'
  have := h'.not_lt h
  omega

private theorem dist_le_iff {a c x : ℚ} (h : a < c) : |x - c| ≤ |x - a| ↔ (a + c) / 2 ≤ x := by
  rcases abs_cases (x - c) with hc | hc <;> rcases abs_cases (x - a) with ha | ha <;>
    rw [hc.1, ha.1] <;> constructor <;> intro <;> linarith

private theorem le_dist_iff {a c x : ℚ} (h : a < c) : |x - a| ≤ |x - c| ↔ x ≤ (a + c) / 2 := by
  rcases abs_cases (x - c) with hc | hc <;> rcases abs_cases (x - a) with ha | ha <;>
    rw [hc.1, ha.1] <;> constructor <;> intro <;> linarith

/-- Only the two neighbours of a pattern can be nearer. -/
theorem nearest_iff (hb : 0 < b) (hlt : b < F.infinity) : F.Nearest x b ↔
    (F.size (b - 1) + F.size b) / 2 ≤ x ∧ x ≤ (F.size b + F.size (b + 1)) / 2 ∧
      (x = (F.size (b - 1) + F.size b) / 2 ∨ x = (F.size b + F.size (b + 1)) / 2 → b % 2 = 0) := by
  have hlow : F.size (b - 1) < F.size b := F.strictMono_size (by omega)
  have hhigh : F.size b < F.size (b + 1) := F.strictMono_size (by omega)
  constructor
  · intro h
    have hpred := h.dist_le (b - 1) (by omega)
    have hsucc := h.dist_le (b + 1) (by omega)
    refine ⟨(dist_le_iff hlow).1 hpred, (le_dist_iff hhigh).1 hsucc, fun hend => ?_⟩
    rcases hend with hend | hend
    · have htie := (le_dist_iff hlow).2 hend.le
      exact h.even (b - 1) (by omega) (by omega) (le_antisymm htie hpred)
    · have htie := (dist_le_iff hhigh).2 hend.ge
      exact h.even (b + 1) (by omega) (by omega) (le_antisymm htie hsucc)
  · intro h
    obtain ⟨hpred, hsucc, hend⟩ := h
    have below {b' : Nat} (hlt : b' < b) : (F.size b' + F.size b) / 2 ≤
        (F.size (b - 1) + F.size b) / 2 := by
      have := F.strictMono_size.monotone (show b' ≤ b - 1 by omega)
      linarith
    have above {b' : Nat} (hlt : b < b') : (F.size b + F.size (b + 1)) / 2 ≤
        (F.size b + F.size b') / 2 := by
      have := F.strictMono_size.monotone (show b + 1 ≤ b' by omega)
      linarith
    constructor
    · exact hlt.le
    · intro b' _
      rcases Nat.lt_trichotomy b' b with hb' | rfl | hb'
      · exact (dist_le_iff (F.strictMono_size hb')).2 ((below hb').trans hpred)
      · exact le_rfl
      · exact (le_dist_iff (F.strictMono_size hb')).2 (hsucc.trans (above hb'))
    · intro b' _ hne htie
      rcases Nat.lt_or_gt_of_ne hne with hb' | hb'
      · have hmid := (le_dist_iff (F.strictMono_size hb')).1 htie.le
        exact hend (.inl (le_antisymm (hmid.trans (below hb')) hpred))
      · have hmid := (dist_le_iff (F.strictMono_size hb')).1 htie.le
        exact hend (.inr (le_antisymm hsucc ((above hb').trans hmid)))

theorem place_pred (hb : 0 < b) : F.place (b - 1) =
    if F.significand b = 2 ^ F.fractionBits ∧ F.minExponent < F.place b then F.place b - 1
    else F.place b := by
  have hpos : 0 < 2 ^ F.fractionBits := Nat.two_pow_pos _
  have hsplit := Nat.div_add_mod b (2 ^ F.fractionBits)
  unfold place significand
  generalize 2 ^ F.fractionBits = N at hpos hsplit ⊢
  by_cases hmod : b % N = 0
  · -- The pattern before a multiple of `N` has the next lower exponent field, if there is one.
    obtain ⟨k, hk⟩ : ∃ k, b / N = k + 1 := by
      refine Nat.exists_eq_succ_of_ne_zero fun hzero => ?_
      rw [hmod, hzero] at hsplit
      omega
    have hpred : b - 1 = N * k + (N - 1) := by
      rw [hmod, hk, Nat.mul_succ] at hsplit
      omega
    have hdiv : (b - 1) / N = k := by
      rw [hpred, Nat.mul_add_div hpos, Nat.div_eq_of_lt (by omega), Nat.add_zero]
    rw [hdiv, hk, hmod]
    rcases Nat.eq_zero_or_pos k with hzero | hk'
    · simp [hzero]
    · rw [if_pos ⟨by simp, by omega⟩]
      omega
  · have hlt : b % N < N := Nat.mod_lt b hpos
    have hpred : b - 1 = N * (b / N) + (b % N - 1) := by omega
    have hrest : (b % N - 1) / N = 0 := Nat.div_eq_of_lt (by omega)
    have hdiv : (b - 1) / N = b / N := by
      rw [hpred, Nat.mul_add_div hpos, hrest, Nat.add_zero]
    have hne : (if b / N = 0 then b else N + b % N) ≠ N := by
      split
      · next hsub =>
        rw [hsub] at hsplit
        omega
      · omega
    rw [hdiv, if_neg fun h => hne h.1]

theorem significand_pos (hb : 0 < b) : 0 < F.significand b := by
  have hpos : 0 < 2 ^ F.fractionBits := Nat.two_pow_pos _
  unfold significand
  split <;> omega

theorem significand_mod_two (hF : 0 < F.fractionBits) (b : Nat) :
    F.significand b % 2 = b % 2 := by
  have hdvd : 2 ∣ 2 ^ F.fractionBits := dvd_pow_self 2 hF.ne'
  unfold significand
  split
  · rfl
  · rw [Nat.add_mod, Nat.mod_mod_of_dvd b hdvd, Nat.mod_eq_zero_of_dvd hdvd, Nat.zero_add,
      Nat.mod_mod]

end WasmBinary.Ieee.Format
