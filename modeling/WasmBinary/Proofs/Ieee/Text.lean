import WasmBinary.Instruction.Text
import WasmBinary.Proofs.Ieee.Shortest

/-! The text of a floating-point constant identifies it.

The text of a finite constant is read back as a decimal that rounds to it and to nothing else. No
decimal of fewer digits rounds to it, and none of as many digits is nearer. -/
namespace WasmBinary

/-- A decimal with a sign, which zero has too. -/
structure Numeral where
  negative : Bool
  decimal : Decimal

namespace Numeral

/-- Reads a decimal, after a minus sign or without one. -/
def read? (cs : List Char) : Option Numeral :=
  if cs.head? = some '-' then (Decimal.read? cs.tail).map (Numeral.mk true)
  else (Decimal.read? cs).map (Numeral.mk false)

def value (n : Numeral) : ℚ :=
  (if n.negative then -1 else 1) * n.decimal.value

/-- There is no exponent, and a fraction does not end with a zero, so it is never `.0`. -/
structure IsPlain (s : String) : Prop where
  mem : ∀ c ∈ s.toList, c.isDigit = true ∨ c = '-' ∨ c = '.'
  last : '.' ∈ s.toList → s.toList.getLast? ≠ some '0'

theorem read?_text (negative : Bool) (d : Decimal) :
    ∃ r, read? ((if negative then "-" else "") ++ d.text).toList = some ⟨negative, r⟩ ∧
      r.value = d.value := by
  have hread := d.read?_text
  refine ⟨_, ?_, d.value_of_read?_text hread⟩
  have hhead : d.text.toList.head? ≠ some '-' := by
    intro h
    rcases d.mem_text (List.mem_of_mem_head? h) with h | h <;> exact absurd h (by decide)
  unfold read?
  cases negative with
  | true => simp [hread]
  | false => simp [hread, hhead]

theorem isPlain_text (negative : Bool) {d : Decimal}
    (h : d.exponent < 0 → d.coefficient % 10 ≠ 0) :
    IsPlain ((if negative then "-" else "") ++ d.text) where
  mem c hc := by
    cases negative with
    | true =>
      have hcases : c = '-' ∨ c ∈ d.text.toList := by simpa using hc
      rcases hcases with hminus | hmem
      · simp [hminus]
      · exact (d.mem_text hmem).imp_right .inr
    | false =>
      have hmem : c ∈ d.text.toList := by simpa using hc
      exact (d.mem_text hmem).imp_right .inr
  last hpoint := by
    have hmem : '.' ∈ d.text.toList := by
      cases negative with
      | true => simpa using hpoint
      | false => simpa using hpoint
    have hlast := d.getLast?_text_ne h hmem
    have hne := List.ne_nil_of_mem hmem
    rw [String.toList_append, List.getLast?_append_of_ne_nil _ hne]
    exact hlast

end Numeral

namespace Ieee.Format

variable (F : Format)

/-- The sign is the bit before all others. -/
def isNegative (bits : Nat) : Bool :=
  bits / 2 ^ (F.fractionBits + F.exponentBits) % 2 = 1

def unsigned (bits : Nat) : Nat :=
  bits % 2 ^ (F.fractionBits + F.exponentBits)

def IsFinite (bits : Nat) : Prop :=
  bits / 2 ^ F.fractionBits % 2 ^ F.exponentBits ≠ 2 ^ F.exponentBits - 1

def IsNan (bits : Nat) : Prop :=
  bits / 2 ^ F.fractionBits % 2 ^ F.exponentBits = 2 ^ F.exponentBits - 1 ∧
    bits % 2 ^ F.fractionBits ≠ 0

instance (bits : Nat) : Decidable (F.IsFinite bits) :=
  inferInstanceAs (Decidable (_ ≠ _))

instance (bits : Nat) : Decidable (F.IsNan bits) :=
  inferInstanceAs (Decidable (_ ∧ _))

def value (bits : Nat) : ℚ :=
  (if F.isNegative bits then -1 else 1) * F.size (F.unsigned bits)

/-- Rounding to nearest keeps the sign, also that of zero. -/
structure RoundsTo (n : Numeral) (bits : Nat) : Prop where
  nearest : F.Nearest n.decimal.value (F.unsigned bits)
  sign : F.isNegative bits = n.negative
  width : bits < 2 ^ (F.fractionBits + F.exponentBits + 1)

/-- `x` rounds to the pattern `b`; no number of fewer digits does; and none of as many digits that
does is nearer to what `b` stands for. -/
structure IsShortest (b : Nat) (x : ℚ) : Prop where
  nearest : F.Nearest x b
  digits : ∃ k, HasDigits k x ∧ ∀ y, F.Nearest y b →
    (∀ j, HasDigits j y → k ≤ j) ∧ (HasDigits k y → |x - F.size b| ≤ |y - F.size b|)

/-- The numeral rounds to the pattern and to no other; no numeral of fewer digits rounds to it; and
none of as many digits that does is nearer to what the pattern stands for. -/
structure IsShortestFor (bits : Nat) (n : Numeral) : Prop where
  roundsTo_iff : ∀ b, F.RoundsTo n b ↔ b = bits
  digits : ∃ k, HasDigits k n.decimal.value ∧ ∀ n', F.RoundsTo n' bits →
    (∀ j, HasDigits j n'.decimal.value → k ≤ j) ∧
      (HasDigits k n'.decimal.value → |n.value - F.value bits| ≤ |n'.value - F.value bits|)

variable {F} {bits : Nat}

theorem isShortest_zero : F.IsShortest 0 0 := by
  have hsize : F.size 0 = 0 := by simp [size]
  refine ⟨⟨Nat.zero_le _, ?_, fun _ _ _ _ => rfl⟩, 0, ⟨0, 0, by decide, by simp⟩, fun y _ => ?_⟩
  · intro b' _
    rw [hsize, sub_self, abs_zero]
    exact abs_nonneg _
  · refine ⟨fun j _ => Nat.zero_le j, fun _ => ?_⟩
    rw [hsize, sub_self, abs_zero]
    exact abs_nonneg _

private theorem significand_lt (b : Nat) : F.significand b < 2 ^ (F.fractionBits + 1) := by
  have hpos : 0 < 2 ^ F.fractionBits := Nat.two_pow_pos _
  have hmod := Nat.mod_lt b hpos
  unfold significand
  rw [Nat.pow_succ]
  split
  · next hsub =>
    have hlt := (Nat.div_eq_zero_iff_lt hpos).1 hsub
    omega
  · omega

theorem isShortest_of_pos (hF : 0 < F.fractionBits) {b : Nat} (hb : 0 < b) (hlt : b < F.infinity) :
    F.IsShortest b (F.shortest (F.significand b) (F.place b)).value := by
  obtain ⟨⟨hmem, k, hk, hall⟩, -⟩ :=
    isShortest_shortest (significand_pos hb) (significand_lt b) (F.place b)
  rw [number_interval, ← size_eq] at hall
  refine ⟨(contains_interval_iff hF hb hlt).1 hmem, k, hk, fun y hy => ?_⟩
  exact hall y ((contains_interval_iff hF hb hlt).2 hy)

private theorem unsigned_div (bits : Nat) :
    F.unsigned bits / 2 ^ F.fractionBits = bits / 2 ^ F.fractionBits % 2 ^ F.exponentBits := by
  unfold unsigned
  rw [Nat.pow_add, Nat.mod_mul_right_div_self]

private theorem unsigned_mod (bits : Nat) :
    F.unsigned bits % 2 ^ F.fractionBits = bits % 2 ^ F.fractionBits := by
  unfold unsigned
  rw [Nat.pow_add, Nat.mod_mul_right_mod]

private theorem unsigned_lt_infinity (h : F.IsFinite bits) : F.unsigned bits < F.infinity := by
  have hlt : bits / 2 ^ F.fractionBits % 2 ^ F.exponentBits < 2 ^ F.exponentBits :=
    Nat.mod_lt _ (Nat.two_pow_pos _)
  unfold infinity
  rw [← Nat.div_lt_iff_lt_mul (Nat.two_pow_pos _), unsigned_div]
  unfold IsFinite at h
  omega

theorem datum_of_isFinite (h : F.IsFinite bits) : F.datum bits =
    .finite (F.isNegative bits) (F.significand (F.unsigned bits)) (F.place (F.unsigned bits)) := by
  unfold datum significand place isNegative
  dsimp only
  rw [if_neg h, unsigned_div, unsigned_mod]
  by_cases hsub : bits / 2 ^ F.fractionBits % 2 ^ F.exponentBits = 0
  · have hsmall : F.unsigned bits = bits % 2 ^ F.fractionBits := by
      rw [← unsigned_mod, Nat.mod_eq_of_lt]
      rw [← Nat.div_eq_zero_iff_lt (Nat.two_pow_pos _), unsigned_div, hsub]
    simp [hsub, hsmall]
  · have hcast := Nat.cast_sub (R := Int) (Nat.pos_of_ne_zero hsub)
    simp [hsub, hcast]

theorem datum_of_not_isFinite (h : ¬ F.IsFinite bits) (hnan : ¬ F.IsNan bits) :
    F.datum bits = .infinite (F.isNegative bits) ∧ F.unsigned bits = F.infinity := by
  have hexponent : bits / 2 ^ F.fractionBits % 2 ^ F.exponentBits = 2 ^ F.exponentBits - 1 :=
    not_not.1 h
  have hfraction : bits % 2 ^ F.fractionBits = 0 := by
    by_contra hne
    exact hnan ⟨hexponent, hne⟩
  constructor
  · simp [datum, isNegative, hexponent, hfraction]
  · have hsplit := Nat.div_add_mod (F.unsigned bits) (2 ^ F.fractionBits)
    rw [unsigned_div, unsigned_mod, hexponent, hfraction, Nat.add_zero] at hsplit
    rw [infinity, Nat.mul_comm, hsplit]

theorem eq_of_unsigned_eq {bits' : Nat} (h : bits < 2 ^ (F.fractionBits + F.exponentBits + 1))
    (h' : bits' < 2 ^ (F.fractionBits + F.exponentBits + 1))
    (hsign : F.isNegative bits = F.isNegative bits') (hrest : F.unsigned bits = F.unsigned bits') :
    bits = bits' := by
  rw [Nat.pow_succ] at h h'
  unfold isNegative at hsign
  unfold unsigned at hrest
  generalize 2 ^ (F.fractionBits + F.exponentBits) = N at h h' hsign hrest
  have hquotient : bits / N < 2 := Nat.div_lt_of_lt_mul h
  have hquotient' : bits' / N < 2 := Nat.div_lt_of_lt_mul h'
  have same : ∀ q < 2, ∀ q' < 2, decide (q % 2 = 1) = decide (q' % 2 = 1) → q = q' := by decide
  have hsame : bits / N = bits' / N := same _ hquotient _ hquotient' hsign
  rw [← Nat.div_add_mod bits N, ← Nat.div_add_mod bits' N, hsame, hrest]

theorem exists_decimal (hF : 0 < F.fractionBits) (h : F.IsFinite bits) : ∃ d : Decimal,
    F.text bits = (if F.isNegative bits then "-" else "") ++ d.text ∧
      F.IsShortest (F.unsigned bits) d.value ∧ (d.exponent < 0 → d.coefficient % 10 ≠ 0) := by
  have hlt := unsigned_lt_infinity h
  unfold text
  rw [datum_of_isFinite h]
  dsimp only
  rcases Nat.eq_zero_or_pos (F.unsigned bits) with hzero | hpos
  · have hsignificand : F.significand 0 = 0 := by simp [significand]
    refine ⟨⟨0, 0⟩, ?_, ?_, fun h => absurd h (by decide)⟩
    · rw [hzero, hsignificand, if_pos rfl]
      rfl
    · simpa [hzero, Decimal.value] using F.isShortest_zero
  · have hsignificand : 0 < F.significand (F.unsigned bits) := significand_pos hpos
    refine ⟨_, ?_, isShortest_of_pos hF hpos hlt, fun _ => ?_⟩
    · rw [if_neg hsignificand.ne']
    · exact (isShortest_shortest hsignificand (significand_lt _) _).2

theorem isShortestFor_of_isShortest {r : Decimal}
    (hbits : bits < 2 ^ (F.fractionBits + F.exponentBits + 1))
    (h : F.IsShortest (F.unsigned bits) r.value) :
    F.IsShortestFor bits ⟨F.isNegative bits, r⟩ := by
  have hdist (x y : ℚ) (negative : Bool) :
      |(if negative then -1 else 1) * x - (if negative then -1 else 1) * y| = |x - y| := by
    rw [← mul_sub, abs_mul]
    cases negative <;> simp
  obtain ⟨hnearest, k, hk, hall⟩ := h
  refine ⟨fun b => ⟨fun hb => ?_, fun hb => ?_⟩, k, hk, fun n' hn' => ?_⟩
  · exact eq_of_unsigned_eq hb.width hbits hb.sign (hb.nearest.unique hnearest)
  · subst hb
    exact ⟨hnearest, rfl, hbits⟩
  · obtain ⟨hfewest, hclosest⟩ := hall _ hn'.nearest
    refine ⟨hfewest, fun hn => ?_⟩
    unfold value Numeral.value
    rw [← hn'.sign, hdist, hdist]
    exact hclosest hn

variable (F) in
/-- The text is the shortest decimal for a pattern, in plain notation. -/
def WrittenAs (bits : Nat) (s : String) : Prop :=
  ∃ n, Numeral.read? s.toList = some n ∧ F.IsShortestFor bits n ∧ Numeral.IsPlain s

theorem writtenAs_text (hF : 0 < F.fractionBits)
    (hbits : bits < 2 ^ (F.fractionBits + F.exponentBits + 1)) (h : F.IsFinite bits) :
    F.WrittenAs bits (F.text bits) := by
  obtain ⟨d, htext, hshortest, hlast⟩ := exists_decimal hF h
  obtain ⟨r, hread, hvalue⟩ := Numeral.read?_text (F.isNegative bits) d
  rw [htext]
  rw [← hvalue] at hshortest
  exact ⟨_, hread, isShortestFor_of_isShortest hbits hshortest, Numeral.isPlain_text _ hlast⟩

theorem text_of_not_isFinite (h : ¬ F.IsFinite bits) (hnan : ¬ F.IsNan bits) :
    F.text bits = if F.isNegative bits then "-inf" else "inf" := by
  unfold text
  rw [(datum_of_not_isFinite h hnan).1]

private theorem read?_inf (negative : Bool) :
    Numeral.read? (if negative then "-inf" else "inf").toList = none := by
  cases negative <;> simp [Numeral.read?, Decimal.read?]

/-- A text is read as one number, which rounds to one pattern, or is one of the infinities. -/
theorem text_inj (hF : 0 < F.fractionBits) {bits' : Nat}
    (hbits : bits < 2 ^ (F.fractionBits + F.exponentBits + 1))
    (hbits' : bits' < 2 ^ (F.fractionBits + F.exponentBits + 1)) (hnan : ¬ F.IsNan bits)
    (hnan' : ¬ F.IsNan bits') (h : F.text bits = F.text bits') : bits = bits' := by
  have differs {a b : Nat} (ha : a < 2 ^ (F.fractionBits + F.exponentBits + 1))
      (hfinite : F.IsFinite a) (hinfinite : ¬ F.IsFinite b) (hb : ¬ F.IsNan b) :
      F.text a ≠ F.text b := by
    intro heq
    obtain ⟨n, hread, -⟩ := writtenAs_text hF ha hfinite
    rw [heq, text_of_not_isFinite hinfinite hb, read?_inf] at hread
    cases hread
  by_cases hfinite : F.IsFinite bits
  · by_cases hfinite' : F.IsFinite bits'
    · obtain ⟨n, hread, hshortest, -⟩ := writtenAs_text hF hbits hfinite
      obtain ⟨n', hread', hshortest', -⟩ := writtenAs_text hF hbits' hfinite'
      rw [h] at hread
      obtain rfl := Option.some.inj (hread.symm.trans hread')
      exact (hshortest'.roundsTo_iff bits).1 ((hshortest.roundsTo_iff bits).2 rfl)
    · exact absurd h (differs hbits hfinite hfinite' hnan')
  · by_cases hfinite' : F.IsFinite bits'
    · exact absurd h.symm (differs hbits' hfinite' hfinite hnan)
    · rw [text_of_not_isFinite hfinite hnan, text_of_not_isFinite hfinite' hnan'] at h
      have hrest := (datum_of_not_isFinite hfinite hnan).2.trans
        (datum_of_not_isFinite hfinite' hnan').2.symm
      refine eq_of_unsigned_eq hbits hbits' ?_ hrest
      revert h
      cases F.isNegative bits <;> cases F.isNegative bits' <;> simp

end Ieee.Format

open Ieee

namespace Instruction

def f32Const (bits : UInt32) : Instruction :=
  ⟨.f32Const, .f32 bits⟩

def f64Const (bits : UInt64) : Instruction :=
  ⟨.f64Const, .f64 bits⟩

theorem text_f32Const (bits : UInt32) :
    (f32Const bits).text = "f32.const " ++ binary32.text bits.toNat := by
  change "f32.const" ++ (" " ++ binary32.text bits.toNat) = _
  rw [← String.append_assoc]
  rfl

theorem text_f64Const (bits : UInt64) :
    (f64Const bits).text = "f64.const " ++ binary64.text bits.toNat := by
  change "f64.const" ++ (" " ++ binary64.text bits.toNat) = _
  rw [← String.append_assoc]
  rfl

/-- The text of a finite constant is the shortest decimal that rounds to it, and the nearest of
these; and constants that are numbers or infinities have different texts. -/
theorem floatConst_text_exact :
    (∀ bits : UInt32, binary32.IsFinite bits.toNat →
      ∃ s, (f32Const bits).text = "f32.const " ++ s ∧ binary32.WrittenAs bits.toNat s) ∧
    (∀ bits : UInt64, binary64.IsFinite bits.toNat →
      ∃ s, (f64Const bits).text = "f64.const " ++ s ∧ binary64.WrittenAs bits.toNat s) ∧
    (∀ a b : UInt32, ¬ binary32.IsNan a.toNat → ¬ binary32.IsNan b.toNat →
      (f32Const a).text = (f32Const b).text → a = b) ∧
    ∀ a b : UInt64, ¬ binary64.IsNan a.toNat → ¬ binary64.IsNan b.toNat →
      (f64Const a).text = (f64Const b).text → a = b := by
  refine ⟨fun bits h => ?_, fun bits h => ?_, fun a b ha hb h => ?_, fun a b ha hb h => ?_⟩
  · exact ⟨_, text_f32Const bits, Format.writtenAs_text (by decide) bits.toNat_lt h⟩
  · exact ⟨_, text_f64Const bits, Format.writtenAs_text (by decide) bits.toNat_lt h⟩
  · rw [text_f32Const, text_f32Const, String.append_right_inj] at h
    apply UInt32.toNat_inj.1
    exact Format.text_inj (F := binary32) (by decide) a.toNat_lt b.toNat_lt ha hb h
  · rw [text_f64Const, text_f64Const, String.append_right_inj] at h
    apply UInt64.toNat_inj.1
    exact Format.text_inj (F := binary64) (by decide) a.toNat_lt b.toNat_lt ha hb h

/-- The least positive number of 32 bits, of which one digit is enough; and the zeros and infinities
of 64 bits. -/
theorem floatConst_text_exact_least :
    binary32.IsFinite 1 ∧
      binary32.WrittenAs 1 "0.000000000000000000000000000000000000000000001" ∧
      (f64Const 0).text ≠ (f64Const 0x8000000000000000).text ∧
      (f64Const 0x7FF0000000000000).text ≠ (f64Const 0xFFF0000000000000).text := by
  have hfinite : binary32.IsFinite (1 : UInt32).toNat := by decide
  have htext : (f32Const 1).text =
      "f32.const " ++ "0.000000000000000000000000000000000000000000001" := by decide +kernel
  refine ⟨hfinite, ?_, fun h => ?_, fun h => ?_⟩
  · obtain ⟨s, hs, hwritten⟩ := floatConst_text_exact.1 1 hfinite
    rw [htext, String.append_right_inj] at hs
    rw [hs]
    exact hwritten
  · have heq := floatConst_text_exact.2.2.2 0 0x8000000000000000 (by decide +kernel)
      (by decide +kernel) h
    exact absurd heq (by decide)
  · have heq := floatConst_text_exact.2.2.2 0x7FF0000000000000 0xFFF0000000000000
      (by decide +kernel) (by decide +kernel) h
    exact absurd heq (by decide)

end Instruction
end WasmBinary
