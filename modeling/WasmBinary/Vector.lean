import WasmBinary.Decoder.Repeat
import WasmBinary.Leb128

/-! Vectors, which announce their length first, and names, which are vectors of UTF-8 bytes. -/
namespace WasmBinary.Decoder

variable {α : Type}

/-- A count and as many items; an item may depend on its number, from 0 on. -/
def indexedVector (d : Nat → Decoder α) : Decoder (List α) := do
  let count ← Leb128.u32
  times count.toNat d

def vector (d : Decoder α) : Decoder (List α) :=
  indexedVector fun _ => d

/-- A count and as many bytes, read at once. -/
def byteVector : Decoder (List UInt8) := do
  let count ← Leb128.u32
  read count.toNat

/-- A name. That it is not UTF-8 is reported at its length field. -/
def name : Decoder String := do
  let offset ← position
  let bs ← byteVector
  match Utf8.decode bs with
  | .ok s => return s
  | .error fault => failAt offset (.invalidName bs fault)

theorem advances_indexedVector {d : Nat → Decoder α} (hd : ∀ i, NonGrowing (d i)) :
    Advances (indexedVector d) :=
  Leb128.advances_u32.bind fun count => nonGrowing_times hd count.toNat

theorem advances_vector {d : Decoder α} (hd : NonGrowing d) : Advances (vector d) :=
  advances_indexedVector fun _ => hd

theorem advances_byteVector : Advances byteVector :=
  Leb128.advances_u32.bind fun count => nonGrowing_read count.toNat

theorem advances_name : Advances name := by
  refine nonGrowing_position.bind_advances fun offset => advances_byteVector.bind fun bs => ?_
  split
  · exact nonGrowing_pure _
  · exact (advances_failAt _ _).nonGrowing

end WasmBinary.Decoder
