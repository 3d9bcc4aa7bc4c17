import WasmBinary.Decoder.Progress
import WasmBinary.Power

/-! LEB128: integers in groups of seven bits, least significant group first. The top bit of a byte
says whether another one follows. -/
namespace WasmBinary.Leb128

open Decoder

/-- The seven bits that a byte contributes. -/
def payload (b : UInt8) : Nat :=
  b.toNat % 128

/-- The seven bits as a number in two's complement. -/
def signedPayload (b : UInt8) : Int :=
  if payload b < 64 then payload b else payload b - 128

def continues (b : UInt8) : Bool :=
  128 ≤ b.toNat

/-- The number of bytes that may follow the first one. -/
def moreBytes (width : Nat) : Nat :=
  (width - 1) / 7

def next (width start : Nat) : Decoder UInt8 := fun c =>
  match byte c with
  | .ok b c => .ok b c
  | .error e c =>
    match e.cause with
    | .unexpectedEnd _ => failAt start (.malformedInteger width .truncated) c
    | _ => .error e c

/-- Goes on after the byte `b`, which may hold the lowest seven of the `bits` that are left; at most
`more` bytes follow it. Excess bits are reported before an excess byte. -/
def unsignedFrom (width start : Nat) : (more bits : Nat) → (b : UInt8) → Decoder Nat
  | more, bits, b =>
    if 2 ^ bits ≤ payload b then failAt start (.malformedInteger width .tooLarge)
    else if !continues b then return payload b
    else
      match more with
      | 0 => failAt start (.malformedInteger width .tooLong)
      | more + 1 => do
        let rest ← unsignedFrom width start more (bits - 7) (← next width start)
        return payload b + 128 * rest

/-- Goes on after the byte `b`. An excess byte is reported before excess bits. -/
def signedFrom (width start : Nat) : (more bits : Nat) → (b : UInt8) → Decoder Int
  | more, bits, b =>
    if !continues b then
      if -2 ^ (bits - 1) ≤ signedPayload b ∧ signedPayload b < 2 ^ (bits - 1) then
        return signedPayload b
      else failAt start (.malformedInteger width .tooLarge)
    else
      match more with
      | 0 => failAt start (.malformedInteger width .tooLong)
      | more + 1 => do
        let rest ← signedFrom width start more (bits - 7) (← next width start)
        return payload b + 128 * rest

/-- A natural number below `2 ^ width`. -/
def unsigned (width : Nat) : Decoder Nat := do
  let start ← position
  unsignedFrom width start (moreBytes width) width (← next width start)

/-- An integer between `-2 ^ (width - 1)` and `2 ^ (width - 1)`. -/
def signed (width : Nat) : Decoder Int := do
  let start ← position
  signedFrom width start (moreBytes width) width (← next width start)

def u32 : Decoder UInt32 :=
  UInt32.ofNat <$> unsigned 32

def u64 : Decoder UInt64 :=
  UInt64.ofNat <$> unsigned 64

def i32 : Decoder Int32 :=
  Int32.ofInt <$> signed 32

def i64 : Decoder Int64 :=
  Int64.ofInt <$> signed 64

def s33 : Decoder Int :=
  signed 33

theorem advances_next (width start : Nat) : Advances (next width start) := by
  intro c a c' h
  unfold next at h
  split at h
  · next b m hb =>
    obtain ⟨_, rfl⟩ := EStateM.Result.ok.inj h
    exact advances_byte hb
  · split at h
    · exact nomatch h
    · simp at h

theorem nonGrowing_unsignedFrom (width start more bits : Nat) (b : UInt8) :
    NonGrowing (unsignedFrom width start more bits b) := by
  induction more generalizing bits b with
  | zero =>
    unfold unsignedFrom
    split
    · exact (advances_failAt _ _).nonGrowing
    · split
      · exact nonGrowing_pure _
      · exact (advances_failAt _ _).nonGrowing
  | succ more ih =>
    unfold unsignedFrom
    split
    · exact (advances_failAt _ _).nonGrowing
    · split
      · exact nonGrowing_pure _
      · exact (advances_next width start).nonGrowing.bind fun b =>
          (ih (bits - 7) b).bind fun _ => nonGrowing_pure _

theorem nonGrowing_signedFrom (width start more bits : Nat) (b : UInt8) :
    NonGrowing (signedFrom width start more bits b) := by
  have last : NonGrowing
      (if -2 ^ (bits - 1) ≤ signedPayload b ∧ signedPayload b < 2 ^ (bits - 1) then
        pure (signedPayload b)
      else failAt start (.malformedInteger width .tooLarge) : Decoder Int) := by
    split
    · exact nonGrowing_pure _
    · exact (advances_failAt _ _).nonGrowing
  induction more generalizing bits b with
  | zero =>
    unfold signedFrom
    split
    · exact last
    · exact (advances_failAt _ _).nonGrowing
  | succ more ih =>
    unfold signedFrom
    split
    · exact last
    · refine (advances_next width start).nonGrowing.bind fun b =>
        (ih (bits - 7) b ?_).bind fun _ => nonGrowing_pure _
      split
      · exact nonGrowing_pure _
      · exact (advances_failAt _ _).nonGrowing

theorem advances_unsigned (width : Nat) : Advances (unsigned width) :=
  nonGrowing_position.bind_advances fun start =>
    (advances_next width start).bind fun b => nonGrowing_unsignedFrom width start _ _ b

theorem advances_signed (width : Nat) : Advances (signed width) :=
  nonGrowing_position.bind_advances fun start =>
    (advances_next width start).bind fun b => nonGrowing_signedFrom width start _ _ b

theorem advances_u32 : Advances u32 := (advances_unsigned 32).map _

theorem advances_u64 : Advances u64 := (advances_unsigned 64).map _

theorem advances_i32 : Advances i32 := (advances_signed 32).map _

theorem advances_i64 : Advances i64 := (advances_signed 64).map _

theorem advances_s33 : Advances s33 := advances_signed 33

end WasmBinary.Leb128
