import WasmBinary.Proofs.Ieee.Rounding

/-! The interval of a pattern, as integers over one denominator, holds exactly the numbers that
round to the pattern. -/
namespace WasmBinary.Ieee

theorem zpow_eq_div (a : ℚ) (e : Int) : a ^ e = a ^ e.toNat / a ^ (-e).toNat := by
  rcases le_total 0 e with he | he
  · rw [Int.toNat_eq_zero.2 (by omega : -e ≤ 0), pow_zero, div_one, ← zpow_natCast,
      Int.toNat_of_nonneg he]
  · rw [Int.toNat_eq_zero.2 he, pow_zero, one_div, ← zpow_natCast, Int.toNat_of_nonneg (by omega),
      zpow_neg, inv_inv]

namespace Interval

def number (I : Interval) : ℚ :=
  I.value / I.den

/-- Whether `x` lies before `y`, or at `y` where the ends count. -/
def Precedes (I : Interval) (x y : ℚ) : Prop :=
  x ≤ y ∧ (x = y → I.closed = true)

def Contains (I : Interval) (x : ℚ) : Prop :=
  I.Precedes (I.low / I.den) x ∧ I.Precedes x (I.high / I.den)

structure Proper (I : Interval) : Prop where
  low_pos : 0 < I.low
  low_lt : I.low < I.value
  lt_high : I.value < I.high
  den_pos : 0 < I.den

end Interval

namespace Format

variable {F : Format} {x : ℚ} {b m : Nat} {e : Int}

theorem proper_interval (hm : 0 < m) (e : Int) : (F.interval m e).Proper := by
  have hscale : 0 < 2 ^ (e - 2).toNat := Nat.two_pow_pos _
  have hden : 0 < 2 ^ (2 - e).toNat := Nat.two_pow_pos _
  have hbelow : (if m = 2 ^ F.fractionBits ∧ F.minExponent < e then 1 else 2) < 3 := by
    split <;> decide
  have hbelow' : 0 < (if m = 2 ^ F.fractionBits ∧ F.minExponent < e then 1 else 2) := by
    split <;> decide
  refine ⟨?_, ?_, ?_, hden⟩
  · exact Nat.mul_pos (by omega) hscale
  · exact Nat.mul_lt_mul_of_pos_right (by omega) hscale
  · exact Nat.mul_lt_mul_of_pos_right (by omega) hscale

theorem quarters (n : Nat) (e : Int) :
    ((n * 2 ^ (e - 2).toNat : Nat) : ℚ) / (2 ^ (2 - e).toNat : Nat) = n * 2 ^ e / 4 := by
  have hquarter : (2 : ℚ) ^ (e - 2) = 2 ^ e / 4 := by
    rw [zpow_sub₀ (by norm_num)]
    norm_num
  rw [zpow_eq_div, neg_sub] at hquarter
  push_cast
  rw [mul_div_assoc, hquarter, mul_div_assoc]

theorem number_interval (m : Nat) (e : Int) : (F.interval m e).number = m * 2 ^ e := by
  unfold Interval.number interval
  rw [quarters]
  push_cast
  ring

private theorem high_interval (b : Nat) :
    ((F.interval (F.significand b) (F.place b)).high : ℚ) /
      (F.interval (F.significand b) (F.place b)).den = (F.size b + F.size (b + 1)) / 2 := by
  unfold interval
  rw [quarters, size_succ, size_eq]
  push_cast
  ring

private theorem low_interval (hb : 0 < b) :
    ((F.interval (F.significand b) (F.place b)).low : ℚ) /
      (F.interval (F.significand b) (F.place b)).den = (F.size (b - 1) + F.size b) / 2 := by
  have hpred : F.size b = F.size (b - 1) + 2 ^ F.place (b - 1) := by
    rw [← size_succ, Nat.sub_add_cancel hb]
  have hsignificand : 0 < F.significand b := significand_pos hb
  unfold interval
  rw [quarters, eq_sub_of_add_eq hpred.symm, size_eq, place_pred hb]
  split
  · rw [Nat.cast_sub (by omega), zpow_sub_one₀ (by norm_num)]
    push_cast
    ring
  · rw [Nat.cast_sub (by omega)]
    push_cast
    ring

/-- The interval of a pattern holds exactly the numbers that round to it. -/
theorem contains_interval_iff (hF : 0 < F.fractionBits) (hb : 0 < b) (hlt : b < F.infinity) :
    (F.interval (F.significand b) (F.place b)).Contains x ↔ F.Nearest x b := by
  have hclosed : (F.interval (F.significand b) (F.place b)).closed = true ↔ b % 2 = 0 := by
    simp [interval, significand_mod_two hF]
  rw [nearest_iff hb hlt, Interval.Contains, Interval.Precedes, Interval.Precedes, hclosed,
    high_interval, low_interval hb, eq_comm]
  tauto

end Format
end WasmBinary.Ieee
