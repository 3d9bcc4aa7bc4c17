import WasmBinary.Instruction.Decoder
import WasmBinary.Section.Basic

/-! Decoders of the items of a section, and of a section with its framing. -/
namespace WasmBinary

open Decoder

def LocalGroup.decode : Decoder LocalGroup := do
  let count ← Leb128.u32
  let type ← ValType.decode
  return ⟨count, type⟩

/-- A body of `declared` bytes. Instructions are read up to that size, and none that starts at the
bound of the section or after it. -/
def Body.decode (declared : UInt32) : Decoder Body := do
  let start ← position
  let locals ← vector LocalGroup.decode
  let instructions ← collectWhile
    (fun c => c.position - start < declared.toNat && c.position < c.bound)
    Instruction.decode Instruction.advances_decode
  let consumed := (← position) - start
  if consumed = declared.toNat then return ⟨declared, locals, instructions⟩
  else failAt start (.bodySizeMismatch declared consumed)

/-- The entry of a code section with the given number: a size and a body of that size. -/
def Body.decodeEntry (index : Nat) : Decoder Body := do
  let size ← Leb128.u32
  let offset ← position
  let body ← Body.decode size
  report (.body index offset body)
  return body

def ExportTarget.ofMarker? (b : UInt8) : Option (UInt32 → ExportTarget) :=
  if b = 0x00 then some fun i => .function ⟨i⟩
  else if b = 0x02 then some fun i => .memory ⟨i⟩
  else none

def Export.decode : Decoder Export := do
  let name ← Decoder.name
  let target ← marker ExportTarget.ofMarker? .unsupportedExportKind
  let index ← Leb128.u32
  return ⟨name, target index⟩

def DataSegment.decode : Decoder DataSegment := do
  let memory ← Index.decode
  let offset ← Expr.decode
  let init ← byteVector
  let segment := ⟨memory, offset, init⟩
  report (.segment segment)
  return segment

namespace Section

def decodeTypes : Decoder (List FuncType) := vector FuncType.decode

def decodeFunctions : Decoder (List TypeIdx) := vector Index.decode

def decodeMemories : Decoder (List Limits) := vector Limits.decode

def decodeExports : Decoder (List Export) := vector Export.decode

def decodeCode : Decoder (List Body) := indexedVector Body.decodeEntry

def decodeData : Decoder (List DataSegment) := vector DataSegment.decode

/-- The payload of a section with this id, whatever its size. -/
def decodePayload : SectionId → Decoder Section
  | .types => .types <$> decodeTypes
  | .functions => .functions <$> decodeFunctions
  | .memories => .memories <$> decodeMemories
  | .exports => .exports <$> decodeExports
  | .code => .code <$> decodeCode
  | .data => .data <$> decodeData
  | id => fail (.unsupportedSection id)

/-- The payload of a section of the given size. A section of size 0 has no items, not even a
count. -/
def decodeSized (id : SectionId) (size : UInt32) : Decoder Section :=
  match empty? id with
  | some s => if size = 0 then return s else decodePayload id
  | none => decodePayload id

end Section

/-- What follows the id of a section. The payload must take exactly the declared size. -/
def SectionEntry.decodeAfter (id : SectionId) : Decoder SectionEntry := do
  let size ← Leb128.u32
  let offset ← position
  let header := ⟨id, size, offset⟩
  report (.framed header)
  let payload ← withBound (offset + size.toNat) (Section.decodeSized id size)
  let consumed := (← position) - offset
  if consumed = size.toNat then return ⟨header, payload⟩
  else failAt offset (.sectionSizeMismatch id size consumed)

def SectionEntry.decode : Decoder SectionEntry := do
  let id ← marker SectionId.ofMarker? .unknownSectionId
  inSection id
    (if id.isDecodable then SectionEntry.decodeAfter id else fail (.unsupportedSection id))

theorem LocalGroup.advances_decode : Advances LocalGroup.decode :=
  Leb128.advances_u32.bind fun _ =>
    ValType.advances_decode.nonGrowing.bind fun _ => nonGrowing_pure _

theorem Body.advances_decode (declared : UInt32) : Advances (Body.decode declared) := by
  refine nonGrowing_position.bind_advances fun start =>
    (advances_vector LocalGroup.advances_decode.nonGrowing).bind fun locals =>
      (nonGrowing_collectWhile _ _).bind fun instructions => nonGrowing_position.bind fun here => ?_
  dsimp only
  split
  · exact nonGrowing_pure _
  · exact (advances_failAt _ _).nonGrowing

theorem Body.advances_decodeEntry (index : Nat) : Advances (Body.decodeEntry index) :=
  Leb128.advances_u32.bind fun size => nonGrowing_position.bind fun _ =>
    (Body.advances_decode size).nonGrowing.bind fun _ =>
      (nonGrowing_report _).bind fun _ => nonGrowing_pure _

theorem Export.advances_decode : Advances Export.decode :=
  advances_name.bind fun _ => (advances_marker _ _).nonGrowing.bind fun _ =>
    Leb128.advances_u32.nonGrowing.bind fun _ => nonGrowing_pure _

theorem DataSegment.advances_decode : Advances DataSegment.decode :=
  Index.advances_decode.bind fun _ => Expr.advances_decode.nonGrowing.bind fun _ =>
    advances_byteVector.nonGrowing.bind fun _ =>
      (nonGrowing_report _).bind fun _ => nonGrowing_pure _

theorem Section.nonGrowing_decodePayload (id : SectionId) :
    NonGrowing (Section.decodePayload id) := by
  cases id with
  | types => exact (advances_vector FuncType.advances_decode.nonGrowing).nonGrowing.map _
  | functions => exact (advances_vector Index.advances_decode.nonGrowing).nonGrowing.map _
  | memories => exact (advances_vector Limits.advances_decode.nonGrowing).nonGrowing.map _
  | exports => exact (advances_vector Export.advances_decode.nonGrowing).nonGrowing.map _
  | code =>
    have entry := fun i => (Body.advances_decodeEntry i).nonGrowing
    exact (advances_indexedVector entry).nonGrowing.map _
  | data => exact (advances_vector DataSegment.advances_decode.nonGrowing).nonGrowing.map _
  | _ => exact (advances_fail _).nonGrowing

theorem Section.nonGrowing_decodeSized (id : SectionId) (size : UInt32) :
    NonGrowing (Section.decodeSized id size) := by
  unfold Section.decodeSized
  split
  · split
    · exact nonGrowing_pure _
    · exact Section.nonGrowing_decodePayload id
  · exact Section.nonGrowing_decodePayload id

theorem SectionEntry.advances_decodeAfter (id : SectionId) :
    Advances (SectionEntry.decodeAfter id) := by
  refine Leb128.advances_u32.bind fun size => nonGrowing_position.bind fun offset =>
    (nonGrowing_report _).bind fun _ =>
      ((Section.nonGrowing_decodeSized id size).withBound _).bind fun payload =>
        nonGrowing_position.bind fun here => ?_
  dsimp only
  split
  · exact nonGrowing_pure _
  · exact (advances_failAt _ _).nonGrowing

theorem SectionEntry.advances_decode : Advances SectionEntry.decode := by
  refine (advances_marker _ _).bind fun id => NonGrowing.inSection ?_ id
  split
  · exact (SectionEntry.advances_decodeAfter id).nonGrowing
  · exact (advances_fail _).nonGrowing

end WasmBinary
