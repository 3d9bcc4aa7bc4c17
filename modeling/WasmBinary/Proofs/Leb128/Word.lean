import Mathlib.Tactic.IntervalCases
import Mathlib.Tactic.Linarith
import WasmBinary.Proofs.Leb128.Fault

/-! Integers in machine words. A loop that shifts each group into its place in a word of 64 bits and
at last extends the sign gives the number that the groups make up, and fails as that one does. -/
namespace WasmBinary.Leb128

open Decoder

/-- The seven bits of a byte, in a word. -/
def wordPayload (b : UInt8) : BitVec 64 :=
  (b &&& 0x7F).toBitVec.setWidth 64

/-- Goes on with the groups in `word`, which take `shift` bits; at most `left` bytes follow. -/
def unsignedWordFrom (width start : Nat) : (left shift : Nat) → (word : BitVec 64) →
    Decoder (BitVec 64)
  | 0, _, _ => failAt start (.malformedInteger width .tooLong)
  | left + 1, shift, word => do
    let b ← next width start
    if left = 0 ∧ wordPayload b >>> (width - shift) ≠ 0 then
      failAt start (.malformedInteger width .tooLarge)
    else if b &&& 0x80 = 0 then
      return word ||| wordPayload b <<< shift
    else
      unsignedWordFrom width start left (shift + 7) (word ||| wordPayload b <<< shift)

def unsignedWord (width : Nat) : Decoder (BitVec 64) := do
  let start ← position
  unsignedWordFrom width start (maxBytes width) 0 0

/-- From the sign on, the bits of the last byte, `used` of which belong to the width, are all clear
or all set. -/
def SignExtends (used : Nat) (b : UInt8) : Prop :=
  (wordPayload b).sshiftRight (used - 1) = 0 ∨
    (wordPayload b).sshiftRight (used - 1) = (1 : BitVec 64) <<< (8 - used) - 1

instance (used : Nat) (b : UInt8) : Decidable (SignExtends used b) :=
  inferInstanceAs (Decidable (_ ∨ _))

/-- The sign, which is bit 6 of the last byte `b`, in all bits from `shift` on. -/
def extendSign (shift : Nat) (b : UInt8) (word : BitVec 64) : BitVec 64 :=
  if shift < 64 ∧ b &&& 0x40 ≠ 0 then word ||| BitVec.allOnes 64 <<< shift else word

/-- Goes on after the byte `b`; the groups before it are in `word` and take `shift` bits. At most
`left` bytes follow. -/
def signedWordFrom (width start : Nat) : (left shift : Nat) → (word : BitVec 64) → (b : UInt8) →
    Decoder (BitVec 64)
  | left, shift, word, b =>
    if left = 0 ∧ b &&& 0x80 ≠ 0 then failAt start (.malformedInteger width .tooLong)
    else if left = 0 ∧ ¬ SignExtends (width - shift) b then
      failAt start (.malformedInteger width .tooLarge)
    else if b &&& 0x80 = 0 then
      return extendSign (shift + 7) b (word ||| wordPayload b <<< shift)
    else
      match left with
      | 0 => failAt start (.malformedInteger width .tooLong)
      | left + 1 => do
        signedWordFrom width start left (shift + 7) (word ||| wordPayload b <<< shift)
          (← next width start)

def signedWord (width : Nat) : Decoder (BitVec 64) := do
  let start ← position
  signedWordFrom width start (moreBytes width) 0 0 (← next width start)

private theorem and_128 (b : UInt8) : b &&& 0x80 = 0 ↔ ¬ continues b := by
  have key : ∀ x : BitVec 8, x &&& 128 = 0 ↔ ¬ 128 ≤ x.toNat := by decide
  rw [continues_iff, ← UInt8.toBitVec_inj]
  exact key b.toBitVec

private theorem and_64 (b : UInt8) : b &&& 0x40 = 0 ↔ payload b < 64 := by
  have key : ∀ x : BitVec 8, x &&& 64 = 0 ↔ x.toNat % 128 < 64 := by decide
  rw [payload, ← UInt8.toBitVec_inj]
  exact key b.toBitVec

private theorem toNat_wordPayload (b : UInt8) : (wordPayload b).toNat = payload b := by
  have key : ∀ x : BitVec 8, ((x &&& 127).setWidth 64).toNat = x.toNat % 128 := by decide
  exact key b.toBitVec

variable {width start bits more shift : Nat} {word : BitVec 64} {b : UInt8}

/-- A group is put above the bits that are there, so nothing is lost. -/
private theorem toNat_or_shiftLeft (x : BitVec 64) (h : word.toNat < 2 ^ shift)
    (hshift : shift ≤ 64) :
    (word ||| x <<< shift).toNat = word.toNat + x.toNat * 2 ^ shift % 2 ^ 64 := by
  have hfactor : 2 ^ 64 = 2 ^ shift * 2 ^ (64 - shift) := by
    rw [← Nat.pow_add, Nat.add_sub_cancel' hshift]
  have hmod : x.toNat * 2 ^ shift % 2 ^ 64 = 2 ^ shift * (x.toNat % 2 ^ (64 - shift)) := by
    rw [hfactor, Nat.mul_comm, Nat.mul_mod_mul_left]
  rw [BitVec.toNat_or, BitVec.toNat_shiftLeft, Nat.shiftLeft_eq, hmod, Nat.or_comm,
    ← Nat.two_pow_add_eq_or_of_lt h, Nat.add_comm]

private theorem toNat_put (hword : word.toNat < 2 ^ shift) (hwidth : shift + bits ≤ 64)
    (hb : payload b < 2 ^ bits) :
    (word ||| wordPayload b <<< shift).toNat = word.toNat + 2 ^ shift * payload b := by
  have hlt : payload b * 2 ^ shift < 2 ^ 64 := by
    calc payload b * 2 ^ shift < 2 ^ bits * 2 ^ shift :=
          Nat.mul_lt_mul_of_pos_right hb (Nat.two_pow_pos shift)
      _ = 2 ^ (shift + bits) := by rw [← Nat.pow_add, Nat.add_comm]
      _ ≤ 2 ^ 64 := Nat.pow_le_pow_right (by decide) hwidth
  rw [toNat_or_shiftLeft _ hword (by omega), toNat_wordPayload, Nat.mod_eq_of_lt hlt, Nat.mul_comm]

private theorem toNat_put_lt (hword : word.toNat < 2 ^ shift) (hwidth : shift + 7 ≤ 64) :
    (word ||| wordPayload b <<< shift).toNat < 2 ^ (shift + 7) := by
  have hb := payload_lt b
  rw [toNat_put hword hwidth hb, Nat.pow_add]
  have hmul : 2 ^ shift * (payload b + 1) ≤ 2 ^ shift * 2 ^ 7 := Nat.mul_le_mul_left _ hb
  rw [Nat.mul_succ] at hmul
  omega

private theorem shiftRight_ne_zero_iff : wordPayload b >>> bits ≠ 0 ↔ 2 ^ bits ≤ payload b := by
  have hzero : (0 : BitVec 64).toNat = 0 := rfl
  rw [← toNat_wordPayload, Ne, ← BitVec.toNat_inj, BitVec.toNat_ushiftRight,
    Nat.shiftRight_eq_div_pow, hzero, Nat.div_eq_zero_iff_lt (Nat.two_pow_pos bits), Nat.not_lt]

/-- Before each byte the word is below `2 ^ shift`, and the loop adds what the rest makes up. -/
theorem toNat_unsignedWordFrom (hbits : 0 < bits) (hmore : more = moreBytes bits)
    (hshift : shift + bits = width) (hwidth : width ≤ 64) (hword : word.toNat < 2 ^ shift) :
    BitVec.toNat <$> unsignedWordFrom width start (more + 1) shift word =
      next width start >>= fun b =>
        (fun n => word.toNat + 2 ^ shift * n) <$> unsignedFrom width start more bits b := by
  unfold moreBytes at hmore
  induction more generalizing bits shift word with
  | zero =>
    have hused : width - shift = bits := by omega
    rw [unsignedWordFrom, map_bind]
    apply bind_congr
    intro b
    rw [unsignedFrom, hused]
    by_cases hexcess : 2 ^ bits ≤ payload b
    · rw [if_pos ⟨rfl, shiftRight_ne_zero_iff.2 hexcess⟩, if_pos hexcess]
      rfl
    · rw [if_neg (fun h => hexcess (shiftRight_ne_zero_iff.1 h.2)), if_neg hexcess]
      by_cases hb : continues b
      · rw [if_neg (fun h => (and_128 b).1 h hb), if_neg (by simp [hb])]
        rfl
      · rw [if_pos ((and_128 b).2 hb), if_pos (by simp [hb]), map_pure, map_pure,
          toNat_put hword (by omega) (Nat.not_le.1 hexcess)]
  | succ more ih =>
    rw [unsignedWordFrom, map_bind]
    apply bind_congr
    intro b
    have hlt : 7 < bits := by omega
    have hpow : 2 ^ 7 ≤ 2 ^ bits := Nat.pow_le_pow_right (by decide) hlt.le
    have hp : payload b < 2 ^ 7 := payload_lt b
    have hfits : ¬ 2 ^ bits ≤ payload b := by omega
    have hroom : shift + 7 ≤ 64 := by omega
    have hearly : ¬ (more + 1 = 0 ∧ wordPayload b >>> (width - shift) ≠ 0) := by simp
    have hput := toNat_put hword hroom hp
    rw [unsignedFrom, if_neg hearly, if_neg hfits]
    by_cases hb : continues b
    · rw [if_neg (fun h => (and_128 b).1 h hb), if_neg (by simp [hb]),
        ih (show 0 < bits - 7 by omega) (by omega) (by omega) (toNat_put_lt hword hroom), hput]
      simp only [map_bind, bind_pure_comp, Functor.map_map]
      apply bind_congr
      intro b'
      congr 1
      funext n
      rw [Nat.pow_add]
      ring
    · rw [if_pos ((and_128 b).2 hb), if_pos (by simp [hb]), map_pure, map_pure, hput]

/-- A word of 64 bits holds the number on the way, and tests on the bits of the last byte refuse what
does not fit. -/
theorem unsigned_eq_toNat_word (hpos : 0 < width) (hwidth : width ≤ 64) :
    unsigned width = BitVec.toNat <$> unsignedWord width := by
  have hbytes : maxBytes width = moreBytes width + 1 := by
    unfold maxBytes moreBytes
    omega
  unfold unsigned unsignedWord
  rw [map_bind]
  apply bind_congr
  intro start
  rw [hbytes, toNat_unsignedWordFrom hpos rfl (Nat.zero_add width) hwidth (by simp)]
  simp

private theorem toInt_eq {x : BitVec 64} {v k : Int} (h : x.toNat = v + 2 ^ 64 * k)
    (hlow : -2 ^ 63 ≤ v) (hhigh : v < 2 ^ 63) : x.toInt = v := by
  have hx := x.isLt
  rw [BitVec.toInt_eq_toNat_cond]
  split <;> omega

theorem signExtends_iff (hpos : 0 < bits) (hbits : bits ≤ 7) : SignExtends bits b ↔
    -2 ^ (bits - 1) ≤ signedPayload b ∧ signedPayload b < 2 ^ (bits - 1) := by
  have hp := payload_lt b
  have hword := toNat_wordPayload b
  have hmsb : (wordPayload b).msb = false := by
    rw [BitVec.msb_eq_false_iff_two_mul_lt]
    omega
  rw [signedPayload_mem_iff (by omega), SignExtends, BitVec.sshiftRight_eq_of_msb_false hmsb,
    ← BitVec.toNat_inj, ← BitVec.toNat_inj, BitVec.toNat_ushiftRight, hword,
    Nat.shiftRight_eq_div_pow]
  interval_cases bits <;> simp <;> omega

/-- In two's complement, the word is the number whose last group has a sign. -/
private theorem toInt_extendSign (hword : word.toNat < 2 ^ shift) (hshift : shift < 64)
    (hlow : -2 ^ 63 ≤ word.toNat + 2 ^ shift * signedPayload b)
    (hhigh : word.toNat + 2 ^ shift * signedPayload b < 2 ^ 63) :
    (extendSign (shift + 7) b (word ||| wordPayload b <<< shift)).toInt =
      word.toNat + 2 ^ shift * signedPayload b := by
  have hp := payload_lt b
  have hput := toNat_or_shiftLeft (wordPayload b) hword hshift.le
  have hcast : (2 : Int) ^ shift * payload b = (payload b * 2 ^ shift : Nat) := by
    push_cast
    ring
  rw [toNat_wordPayload] at hput
  by_cases hsign : payload b < 64
  · -- A number that is not negative fits as it is.
    have hvalue : signedPayload b = payload b := if_pos hsign
    rw [hvalue, hcast] at hlow hhigh ⊢
    rw [Nat.mod_eq_of_lt (by omega)] at hput
    rw [extendSign, if_neg fun h => h.2 ((and_64 b).2 hsign)]
    exact toInt_eq (k := 0) (by omega) hlow hhigh
  · have hvalue : signedPayload b = payload b - 128 := if_neg hsign
    have hgroup : 128 * 2 ^ shift = 2 ^ (shift + 7) := by rw [Nat.pow_add, Nat.mul_comm]
    have hproduct : (2 : Int) ^ shift * (payload b - 128) =
        (payload b * 2 ^ shift : Nat) - (128 * 2 ^ shift : Nat) := by
      push_cast
      ring
    have hle : payload b * 2 ^ shift ≤ 127 * 2 ^ shift := Nat.mul_le_mul_right _ (by omega)
    rw [hvalue, hproduct] at hlow hhigh ⊢
    have hN : 0 < 2 ^ shift := Nat.two_pow_pos shift
    by_cases hroom : shift + 7 < 64
    · have hfits : 2 ^ (shift + 7) < 2 ^ 64 := Nat.pow_lt_pow_right (by decide) hroom
      have hones : (BitVec.allOnes 64).toNat * 2 ^ (shift + 7) % 2 ^ 64 =
          2 ^ 64 - 2 ^ (shift + 7) := by
        rw [BitVec.toNat_allOnes]
        omega
      have hbound := toNat_put_lt (b := b) hword hroom.le
      have hextend := toNat_or_shiftLeft (BitVec.allOnes 64) hbound hroom.le
      rw [hput, hones, Nat.mod_eq_of_lt (by omega)] at hextend
      rw [extendSign, if_pos ⟨hroom, fun h => hsign ((and_64 b).1 h)⟩]
      exact toInt_eq (k := 1) (by omega) hlow hhigh
    · -- The sign is the last bit of the word, and the copies of it fall out.
      have hover : 2 ^ (shift + 7) = 2 ^ 64 * 2 ^ (shift - 57) := by
        rw [← Nat.pow_add]
        congr 1
        omega
      rw [extendSign, if_neg fun h => hroom h.1]
      exact toInt_eq (k := 1) (by omega) hlow hhigh

private theorem toInt_extendSign_of_mem (hshift : shift + bits ≤ 64) (hbits : 0 < bits)
    (hword : word.toNat < 2 ^ shift)
    (hrange : -2 ^ (bits - 1) ≤ signedPayload b ∧ signedPayload b < 2 ^ (bits - 1)) :
    (extendSign (shift + 7) b (word ||| wordPayload b <<< shift)).toInt =
      word.toNat + 2 ^ shift * signedPayload b := by
  have hword' : (word.toNat : Int) < 2 ^ shift := by exact_mod_cast hword
  have hpos : (0 : Int) ≤ 2 ^ shift := by positivity
  have hpow : (2 : Int) ^ shift * 2 ^ (bits - 1) ≤ 2 ^ 63 := by
    rw [← pow_add]
    exact pow_le_pow_right₀ (by decide) (by omega)
  have hlow : (2 : Int) ^ shift * -2 ^ (bits - 1) ≤ 2 ^ shift * signedPayload b :=
    mul_le_mul_of_nonneg_left hrange.1 hpos
  have hhigh : (2 : Int) ^ shift * (signedPayload b + 1) ≤ 2 ^ shift * 2 ^ (bits - 1) :=
    mul_le_mul_of_nonneg_left hrange.2 hpos
  apply toInt_extendSign hword (by omega)
  · linarith
  · linarith

theorem toInt_signedWordFrom (hbits : 0 < bits) (hmore : more = moreBytes bits)
    (hshift : shift + bits = width) (hwidth : width ≤ 64) (hword : word.toNat < 2 ^ shift)
    (b : UInt8) :
    BitVec.toInt <$> signedWordFrom width start more shift word b =
      (fun n : Int => word.toNat + 2 ^ shift * n) <$> signedFrom width start more bits b := by
  unfold moreBytes at hmore
  induction more generalizing bits shift word b with
  | zero =>
    have hused : width - shift = bits := by omega
    have hextends := signExtends_iff (b := b) hbits (by omega)
    rw [signedWordFrom, signedFrom, hused]
    by_cases hb : continues b
    · rw [if_pos ⟨rfl, fun h => (and_128 b).1 h hb⟩, if_neg (by simp [hb])]
      rfl
    · have hstop : (!continues b) = true := by simp [hb]
      have hzero := (and_128 b).2 hb
      have hshort : ¬ (0 = 0 ∧ b &&& 0x80 ≠ 0) := fun h => h.2 hzero
      rw [if_neg hshort, if_pos hstop]
      by_cases hrange : -2 ^ (bits - 1) ≤ signedPayload b ∧ signedPayload b < 2 ^ (bits - 1)
      · have hfits : ¬ (0 = 0 ∧ ¬ SignExtends bits b) := fun h => h.2 (hextends.2 hrange)
        rw [if_neg hfits, if_pos hzero, if_pos hrange, map_pure, map_pure,
          toInt_extendSign_of_mem (by omega) hbits hword hrange]
      · rw [if_pos ⟨rfl, fun h => hrange (hextends.1 h)⟩, if_neg hrange]
        rfl
  | succ more ih =>
    have hlt : 7 < bits := by omega
    have hfirst : ¬ (more + 1 = 0 ∧ b &&& 0x80 ≠ 0) := by simp
    have hsecond : ¬ (more + 1 = 0 ∧ ¬ SignExtends (width - shift) b) := by simp
    by_cases hb : continues b
    · have hmask : ¬ b &&& 0x80 = 0 := fun h => (and_128 b).1 h hb
      have hroom : shift + 7 ≤ 64 := by omega
      rw [signedFrom_of_continues hb, signedWordFrom, if_neg hfirst, if_neg hsecond, if_neg hmask]
      simp only [map_bind, Functor.map_map]
      apply bind_congr
      intro b'
      rw [ih (show 0 < bits - 7 by omega) (by omega) (by omega) (toNat_put_lt hword hroom),
        toNat_put hword hroom (payload_lt b)]
      congr 1
      funext n
      push_cast
      rw [pow_add]
      ring
    · have hstop : (!continues b) = true := by simp [hb]
      have hrange := signedPayload_mem hlt.le b
      rw [signedWordFrom, signedFrom, if_neg hfirst, if_neg hsecond, if_pos ((and_128 b).2 hb),
        if_pos hstop, if_pos hrange, map_pure, map_pure,
        toInt_extendSign_of_mem (by omega) hbits hword hrange]

theorem signed_eq_toInt_word (hpos : 0 < width) (hwidth : width ≤ 64) :
    signed width = BitVec.toInt <$> signedWord width := by
  unfold signed signedWord
  rw [map_bind]
  apply bind_congr
  intro start
  rw [map_bind]
  apply bind_congr
  intro b
  rw [toInt_signedWordFrom hpos rfl (Nat.zero_add width) hwidth (by simp)]
  simp

end WasmBinary.Leb128
