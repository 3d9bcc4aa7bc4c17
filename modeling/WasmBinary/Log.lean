import WasmBinary.Section.Basic
import WasmBinary.Text.Number

/-! The events that a decoding run reports. -/
namespace WasmBinary

inductive Level where
  | debug
  | trace
  deriving DecidableEq, Repr

def Level.name : Level → String
  | .debug => "DEBUG"
  | .trace => "TRACE"

/-- Whether a log kept at the level `limit` shows events of this level. -/
def Level.shownAt (level limit : Level) : Bool :=
  level = .debug || limit = .trace

inductive Event where
  /-- The framing of a section was read. -/
  | framed (header : SectionHeader)
  /-- The body with this index in its section, and its first byte at `offset`, was read. -/
  | body (index : Nat) (offset : Nat) (body : Body)
  | segment (segment : DataSegment)
  /-- A whole module of this many sections and bytes was read. -/
  | finished (version : UInt32) (sections : Nat) (bytes : Nat)
  deriving DecidableEq, Repr

namespace Event

def level : Event → Level
  | .framed _ | .finished .. => .debug
  | .body .. | .segment _ => .trace

/-- The part of the program in whose name an event is reported. -/
def topic : Event → String
  | .framed _ | .finished .. => "wasmdbg::decode::module"
  | .body .. => "wasmdbg::decode::sections::code"
  | .segment _ => "wasmdbg::decode::sections::data"

def message : Event → String
  | .framed h => s!"{h.id.name} section: {h.size.toNat} bytes at {Text.offset h.offset}"
  | .body index offset b =>
    s!"code body {index}: {b.size.toNat} bytes at {Text.offset offset}, " ++
      s!"{LocalGroup.slots b.locals} local slots, {b.instructions.length} instructions"
  | .segment d => s!"data segment for memory {d.memory.text}: {d.init.length} bytes"
  | .finished version sections bytes =>
    s!"decoded module: version {version.toNat}, {sections} sections, {bytes} bytes"

end Event
end WasmBinary
