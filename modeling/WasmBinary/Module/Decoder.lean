import WasmBinary.Module.Basic
import WasmBinary.Section.Decoder

/-! The decoder of a whole module. -/
namespace WasmBinary

open Decoder

/-- The magic number and the version, which take the first eight bytes. -/
def Module.decodeHeader : Decoder UInt32 := do
  let found ← bytes 4
  if found ≠ magic then failAt 0 (.malformedHeader found)
  let found ← bytes 4
  let version := UInt32.ofNat (littleEndian found)
  if found ≠ supportedVersion then failAt 4 (.unsupportedVersion version)
  return version

/-- The header and then sections until the stream is at its end. -/
def Module.decode : Decoder Module := do
  let version ← Module.decodeHeader
  let entries ← collectWhile (fun c => !c.isAtEnd) SectionEntry.decode SectionEntry.advances_decode
  report (.finished version entries.length (← position))
  return ⟨version, entries⟩

/-- The module that a stream holds from its position on, and the events of the run. -/
def Module.ofStream (s : Stream) : Except DecodeError Module × List Event :=
  Module.decode.runOn s

def Module.ofBytes (bs : List UInt8) : Except DecodeError Module :=
  (Module.ofStream (.ofBytes bs 0)).1

end WasmBinary
