/-! UTF-8: one pass over the bytes that yields the characters or the place of the first fault. -/
namespace WasmBinary.Utf8

structure Fault where
  /-- The length of the longest well-formed start. -/
  index : Nat
  /-- The number of bytes from `index` on that begin a character but cannot be continued (at
  least one), or `none` if the bytes end inside a character. -/
  invalid : Option Nat
  deriving DecidableEq, Repr

def Fault.message (f : Fault) : String :=
  match f.invalid with
  | some n => s!"invalid utf-8 sequence of {n} bytes from index {f.index}"
  | none => s!"incomplete utf-8 byte sequence from index {f.index}"

/-- A character of which `seen` bytes were read and `left` are missing; the next one must lie
between `low` and `high`. -/
structure Partial where
  seen : Nat
  left : Nat
  low : UInt8
  high : UInt8
  value : Nat
  deriving DecidableEq, Repr

/-- What the first byte of a character announces. The range of the second byte rules out
overlong forms, surrogates and values above U+10FFFF. -/
def Partial.ofLead? (b : UInt8) : Option Partial :=
  if b < 0x80 then some ⟨1, 0, 0x80, 0xBF, b.toNat⟩
  else if b < 0xC2 then none
  else if b < 0xE0 then some ⟨1, 1, 0x80, 0xBF, b.toNat % 32⟩
  else if b = 0xE0 then some ⟨1, 2, 0xA0, 0xBF, 0⟩
  else if b = 0xED then some ⟨1, 2, 0x80, 0x9F, 13⟩
  else if b < 0xF0 then some ⟨1, 2, 0x80, 0xBF, b.toNat % 16⟩
  else if b = 0xF0 then some ⟨1, 3, 0x90, 0xBF, 0⟩
  else if b < 0xF4 then some ⟨1, 3, 0x80, 0xBF, b.toNat % 8⟩
  else if b = 0xF4 then some ⟨1, 3, 0x80, 0x8F, 4⟩
  else none

def Partial.push (p : Partial) (b : UInt8) : Partial :=
  ⟨p.seen + 1, p.left - 1, 0x80, 0xBF, p.value * 64 + b.toNat % 64⟩

/-- Reads on from `index`, the place of the first byte that no character in `chars` (latest
first) covers; `p` is the character begun there, if any. -/
def scan (chars : List Char) (index : Nat) (p : Option Partial) :
    List UInt8 → Except Fault (List Char)
  | [] =>
    match p with
    | none => .ok chars.reverse
    | some _ => .error ⟨index, none⟩
  | b :: bs =>
    match p with
    | none =>
      match Partial.ofLead? b with
      | none => .error ⟨index, some 1⟩
      | some q =>
        if q.left = 0 then scan (Char.ofNat q.value :: chars) (index + 1) none bs
        else scan chars index (some q) bs
    | some q =>
      if q.low ≤ b ∧ b ≤ q.high then
        if q.left = 1 then
          scan (Char.ofNat (q.push b).value :: chars) (index + (q.seen + 1)) none bs
        else scan chars index (some (q.push b)) bs
      else .error ⟨index, some q.seen⟩

def decode (bs : List UInt8) : Except Fault String :=
  (scan [] 0 none bs).map String.ofList

end WasmBinary.Utf8
