import WasmBinary.Section.Basic
import WasmBinary.Text.Number
import WasmBinary.Text.Utf8

/-! Why decoding fails, where, and the words for it. -/
namespace WasmBinary

inductive IntegerFault where
  /-- The input ends inside the encoding. -/
  | truncated
  /-- There are more bytes than the width allows. -/
  | tooLong
  /-- The value does not fit the width. -/
  | tooLarge
  deriving DecidableEq, Repr

inductive Cause where
  | malformedHeader (found : List UInt8)
  | unsupportedVersion (found : UInt32)
  | malformedInteger (width : Nat) (fault : IntegerFault)
  | unexpectedEnd (wanted : Nat)
  | unknownSectionId (found : UInt8)
  | unsupportedSection (id : SectionId)
  | sectionSizeMismatch (id : SectionId) (declared : UInt32) (consumed : Nat)
  | bodySizeMismatch (declared : UInt32) (consumed : Nat)
  | invalidTypeMarker (found : UInt8)
  | invalidValType (found : UInt8)
  | invalidLimitKind (found : UInt8)
  | unsupportedExportKind (found : UInt8)
  | unknownOpcode (found : UInt8)
  | invalidName (bytes : List UInt8) (fault : Utf8.Fault)
  | io (reason : String)
  deriving DecidableEq, Repr

/-- A cause, the offset it concerns, and the section in which it arose, if any. -/
structure DecodeError where
  cause : Cause
  offset : Nat
  within : Option SectionId
  deriving DecidableEq, Repr

/-- The four bytes that open every module. -/
def magic : List UInt8 := [0x00, 0x61, 0x73, 0x6D]

/-- The version field of every supported module: 1, least significant byte first. -/
def supportedVersion : List UInt8 := [0x01, 0x00, 0x00, 0x00]

def IntegerFault.message : IntegerFault → String
  | .truncated => "input ended inside the encoding"
  | .tooLong => "representation too long"
  | .tooLarge => "value out of range"

/-- A list of bytes, one a line. -/
def Text.byteList (bs : List UInt8) : String :=
  "[\n" ++ String.join (bs.map fun b => "    " ++ Text.byte b ++ ",\n") ++ "]"

def Text.markerList (markers : List (UInt8 × String)) : String :=
  String.intercalate ", " (markers.map fun (b, name) => Text.byte b ++ " (" ++ name ++ ")")

def Cause.message : Cause → String
  | .malformedHeader found =>
    "malformed header: expected magic " ++ Text.byteList magic ++ "; got " ++ Text.byteList found
  | .unsupportedVersion found => s!"unsupported version: expected 1; got {found.toNat}"
  | .malformedInteger width fault => s!"malformed {width}-bit LEB128 integer: {fault.message}"
  | .unexpectedEnd wanted => s!"unexpected end of input: could not read {wanted} byte(s)"
  | .unknownSectionId found =>
    "unknown section ID: expected one of " ++
      Text.markerList (SectionId.all.map fun id => (id.marker, id.name)) ++ "; got " ++
      Text.byte found
  | .unsupportedSection id => s!"{id.name} section is not supported"
  | .sectionSizeMismatch id declared consumed =>
    s!"{id.name} section size mismatch: declared {declared.toNat} bytes; consumed {consumed}"
  | .bodySizeMismatch declared consumed =>
    s!"code body size mismatch: declared {declared.toNat} bytes; consumed {consumed}"
  | .invalidTypeMarker found =>
    "invalid type marker: expected 0x60 (function type); got " ++ Text.byte found
  | .invalidValType found =>
    "invalid value type: expected one of " ++
      Text.markerList (ValType.all.map fun t => (t.marker, t.name)) ++ "; got " ++ Text.byte found
  | .invalidLimitKind found =>
    "invalid memory limit kind: expected 0x00 (min) or 0x01 (min and max); got " ++ Text.byte found
  | .unsupportedExportKind found =>
    "unsupported export kind: expected 0x00 (func) or 0x02 (mem); got " ++ Text.byte found
  | .unknownOpcode found => "unknown opcode: " ++ Text.byte found
  | .invalidName _ _ => "invalid name: not valid UTF-8"
  | .io _ => "failed reading input"

/-- The message of what lies behind the cause, if there is such a thing. -/
def Cause.origin? : Cause → Option String
  | .invalidName _ fault => some fault.message
  | .io reason => some reason
  | _ => none

namespace DecodeError

def message (e : DecodeError) : String :=
  let place :=
    match e.within with
    | some id => " in " ++ id.name ++ " section"
    | none => ""
  e.cause.message ++ " (at offset " ++ Text.offset e.offset ++ place ++ ")"

/-- Attributes an error to a section, unless it belongs to one already. -/
def inSection (id : SectionId) (e : DecodeError) : DecodeError :=
  { e with within := some (e.within.getD id) }

end DecodeError
end WasmBinary
