import WasmBinary.Types.Basic
import WasmBinary.Vector

/-! Decoders of value types, reference types, function types and limits. -/
namespace WasmBinary

open Decoder

def ValType.decode : Decoder ValType :=
  Decoder.marker ValType.ofMarker? .invalidValType

def RefType.ofMarker? (b : UInt8) : Option RefType :=
  if b = 0x70 then some .func else if b = 0x6F then some .external else none

def RefType.decode : Decoder RefType :=
  marker RefType.ofMarker? .invalidValType

def FuncType.decode : Decoder FuncType := do
  marker (fun b => if b = 0x60 then some () else none) .invalidTypeMarker
  let params ← vector ValType.decode
  let results ← vector ValType.decode
  return ⟨params, results⟩

/-- Whether limits have a maximum, by their first byte. -/
def Limits.hasMax? (b : UInt8) : Option Bool :=
  if b = 0x00 then some false else if b = 0x01 then some true else none

def Limits.decode : Decoder Limits := do
  let hasMax ← marker Limits.hasMax? .invalidLimitKind
  let min ← Leb128.u32
  if hasMax then return ⟨min, some (← Leb128.u32)⟩
  else return ⟨min, none⟩

theorem ValType.advances_decode : Advances ValType.decode :=
  advances_marker _ _

theorem RefType.advances_decode : Advances RefType.decode :=
  advances_marker _ _

theorem FuncType.advances_decode : Advances FuncType.decode :=
  have types := (advances_vector ValType.advances_decode.nonGrowing).nonGrowing
  (advances_marker _ _).bind fun _ => types.bind fun _ => types.bind fun _ => nonGrowing_pure _

theorem Limits.advances_decode : Advances Limits.decode := by
  refine (advances_marker _ _).bind fun hasMax => Leb128.advances_u32.nonGrowing.bind fun min => ?_
  split
  · exact Leb128.advances_u32.nonGrowing.bind fun _ => nonGrowing_pure _
  · exact nonGrowing_pure _

end WasmBinary
