import Mathlib.Algebra.Order.Field.Power
import Mathlib.Tactic.Positivity
import Mathlib.Tactic.Ring
import WasmBinary.Decimal
import WasmBinary.Power

/-! Decimal numbers and their plain notation. -/
namespace WasmBinary

/-- `x` is a whole number of at most `n` digits, up to a power of ten. -/
def HasDigits (n : Nat) (x : ℚ) : Prop :=
  ∃ (m : Nat) (e : Int), m < 10 ^ n ∧ x = m * 10 ^ e

namespace Decimal

def value (d : Decimal) : ℚ :=
  d.coefficient * 10 ^ d.exponent

theorem value_strip (c : Nat) (e : Int) : (strip c e).value = c * 10 ^ e := by
  fun_induction strip c e with
  | case1 c e h ih =>
    have hc : ((c / 10 * 10 : Nat) : ℚ) = c := by
      rw [Nat.div_mul_cancel (Nat.dvd_of_mod_eq_zero h.2)]
    rw [ih, zpow_add_one₀ (by norm_num), ← hc]
    push_cast
    ring
  | case2 c e h => rfl

theorem coefficient_strip_mod {c : Nat} (hc : c ≠ 0) (e : Int) :
    (strip c e).coefficient % 10 ≠ 0 := by
  fun_induction strip c e with
  | case1 c e h ih => exact ih (by omega)
  | case2 c e h =>
    intro hmod
    exact h ⟨hc, hmod⟩

/-- Reads digits, or digits on both sides of a point, and nothing else. -/
def read? (cs : List Char) : Option Decimal :=
  let whole := cs.takeWhile Char.isDigit
  if whole = [] then none
  else
    match cs.dropWhile Char.isDigit with
    | [] => some ⟨Nat.ofDigitChars 10 whole 0, 0⟩
    | point :: fraction =>
      if point = '.' ∧ fraction ≠ [] ∧ fraction.all Char.isDigit then
        some ⟨Nat.ofDigitChars 10 (whole ++ fraction) 0, -fraction.length⟩
      else none

section Read

variable {whole fraction : List Char}

private theorem read?_whole (hne : whole ≠ []) (hdigit : ∀ c ∈ whole, c.isDigit = true) :
    read? whole = some ⟨Nat.ofDigitChars 10 whole 0, 0⟩ := by
  have htake : whole.takeWhile Char.isDigit = whole := by
    rw [← List.append_nil whole, List.takeWhile_append_of_pos hdigit]
    simp
  have hdrop : whole.dropWhile Char.isDigit = [] := by
    rw [← List.append_nil whole, List.dropWhile_append_of_pos hdigit]
    simp
  unfold read?
  rw [htake, hdrop]
  exact if_neg hne

private theorem read?_point (hne : whole ≠ []) (hdigit : ∀ c ∈ whole, c.isDigit = true)
    (hne' : fraction ≠ []) (hdigit' : ∀ c ∈ fraction, c.isDigit = true) :
    read? (whole ++ '.' :: fraction) =
      some ⟨Nat.ofDigitChars 10 (whole ++ fraction) 0, -fraction.length⟩ := by
  have htake : (whole ++ '.' :: fraction).takeWhile Char.isDigit = whole := by
    rw [List.takeWhile_append_of_pos hdigit]
    simp
  have hdrop : (whole ++ '.' :: fraction).dropWhile Char.isDigit = '.' :: fraction := by
    rw [List.dropWhile_append_of_pos hdigit]
    simp
  have hfraction : '.' = '.' ∧ fraction ≠ [] ∧ fraction.all Char.isDigit = true :=
    ⟨rfl, hne', List.all_eq_true.2 hdigit'⟩
  unfold read?
  rw [htake, hdrop]
  dsimp only
  rw [if_neg hne, if_pos hfraction]

end Read

/-- The forms of the text: digits alone, or digits on both sides of a point. The digits are those of
the coefficient, with zeros after them or before them. -/
theorem text_cases (d : Decimal) :
    (0 ≤ d.exponent ∧
      d.text.toList = Nat.toDigits 10 d.coefficient ++ List.replicate d.exponent.toNat '0') ∨
    (d.exponent < 0 ∧ ∃ whole fraction zeros, d.text.toList = whole ++ '.' :: fraction ∧
      whole ≠ [] ∧ (fraction.length : Int) = -d.exponent ∧
      whole ++ fraction = List.replicate zeros '0' ++ Nat.toDigits 10 d.coefficient) := by
  unfold text
  dsimp only
  generalize Nat.toDigits 10 d.coefficient = digits
  by_cases hwhole : 0 ≤ d.exponent
  · left
    rw [if_pos hwhole]
    exact ⟨hwhole, String.toList_ofList⟩
  · right
    refine ⟨by omega, ?_⟩
    rw [if_neg hwhole]
    by_cases hpoint : (-d.exponent).toNat < digits.length
    · refine ⟨digits.take (digits.length - (-d.exponent).toNat),
        digits.drop (digits.length - (-d.exponent).toNat), 0, ?_, ?_, ?_, ?_⟩
      · rw [if_pos hpoint, List.splitAt_eq, String.toList_ofList]
      · apply List.ne_nil_of_length_pos
        rw [List.length_take]
        omega
      · rw [List.length_drop]
        omega
      · simp
    · refine ⟨['0'], List.replicate ((-d.exponent).toNat - digits.length) '0' ++ digits,
        (-d.exponent).toNat - digits.length + 1, ?_, by simp, ?_, ?_⟩
      · rw [if_neg hpoint, String.toList_ofList]
        rfl
      · rw [List.length_append, List.length_replicate]
        omega
      · simp [List.replicate_succ]

variable (d : Decimal)

private theorem isDigit_of_mem {zeros : Nat} {c : Char}
    (h : c ∈ List.replicate zeros '0' ∨ c ∈ Nat.toDigits 10 d.coefficient) : c.isDigit = true := by
  rcases h with h | h
  · rw [List.eq_of_mem_replicate h]
    rfl
  · exact Nat.isDigit_of_mem_toDigits (by decide) (by decide) h

theorem read?_text : read? d.text.toList =
    some ⟨d.coefficient * 10 ^ d.exponent.toNat, min d.exponent 0⟩ := by
  rcases d.text_cases with ⟨hexponent, htext⟩ |
    ⟨hexponent, whole, fraction, zeros, htext, hwhole, hlength, hdigits⟩
  · have hdigit : ∀ c ∈ Nat.toDigits 10 d.coefficient ++ List.replicate d.exponent.toNat '0',
        c.isDigit = true := by
      intro c hc
      exact d.isDigit_of_mem (List.mem_append.1 hc).symm
    rw [htext, read?_whole (by simp) hdigit, Nat.ofDigitChars_append,
      Nat.ofDigitChars_ten_toDigits, Nat.ofDigitChars_replicate_zero, Nat.mul_comm,
      min_eq_right hexponent]
  · have hdigit : ∀ c ∈ whole ++ fraction, c.isDigit = true := by
      intro c hc
      rw [hdigits] at hc
      exact d.isDigit_of_mem (List.mem_append.1 hc)
    have hfraction : fraction ≠ [] := by
      apply List.ne_nil_of_length_pos
      omega
    rw [htext, read?_point hwhole (fun c hc => hdigit c (by simp [hc])) hfraction
      (fun c hc => hdigit c (by simp [hc])), hdigits, Nat.ofDigitChars_append,
      Nat.ofDigitChars_replicate_zero, Nat.mul_zero, Nat.ofDigitChars_ten_toDigits, hlength,
      min_eq_left hexponent.le, Int.toNat_eq_zero.2 hexponent.le]
    simp

theorem value_of_read?_text {r : Decimal} (h : read? d.text.toList = some r) :
    r.value = d.value := by
  rw [read?_text] at h
  obtain rfl := Option.some.inj h
  unfold value
  push_cast
  rw [mul_assoc, ← zpow_natCast, ← zpow_add₀ (by norm_num)]
  congr 2
  omega

theorem mem_text {c : Char} (h : c ∈ d.text.toList) : c.isDigit = true ∨ c = '.' := by
  rcases d.text_cases with ⟨-, htext⟩ | ⟨-, whole, fraction, zeros, htext, -, -, hdigits⟩
  · rw [htext, List.mem_append] at h
    exact .inl (d.isDigit_of_mem h.symm)
  · rw [htext, List.mem_append, List.mem_cons, or_left_comm, ← List.mem_append, hdigits,
      List.mem_append] at h
    exact h.symm.imp_left d.isDigit_of_mem

private theorem getLast?_toDigits (n : Nat) :
    (Nat.toDigits 10 n).getLast? = some (n % 10).digitChar := by
  rw [Nat.toDigits_eq_if (by decide)]
  split
  · next hlt => rw [Nat.mod_eq_of_lt hlt, List.getLast?_singleton]
  · rw [List.getLast?_concat]

theorem getLast?_text_ne (h : d.exponent < 0 → d.coefficient % 10 ≠ 0)
    (hpoint : '.' ∈ d.text.toList) : d.text.toList.getLast? ≠ some '0' := by
  intro hlast
  rcases d.text_cases with ⟨-, htext⟩ |
    ⟨hexponent, whole, fraction, zeros, htext, -, hlength, hdigits⟩
  · rw [htext, List.mem_append] at hpoint
    exact absurd (d.isDigit_of_mem hpoint.symm) (by decide)
  · have hlast' : (whole ++ fraction).getLast? = some (d.coefficient % 10).digitChar := by
      rw [hdigits, List.getLast?_append, getLast?_toDigits]
      rfl
    have hne : fraction ≠ [] := by
      apply List.ne_nil_of_length_pos
      omega
    rw [htext, List.getLast?_append, List.getLast?_cons, List.getLast?_eq_some_getLast hne] at hlast
    rw [List.getLast?_append, List.getLast?_eq_some_getLast hne] at hlast'
    have hzero := Option.some.inj (hlast'.symm.trans hlast)
    exact h hexponent (Nat.digitChar_eq_zero.1 hzero)

end Decimal
end WasmBinary
