import WasmBinary.Section.Basic

/-! Modules: a version and the sections in the order of the file. -/
namespace WasmBinary

structure Module where
  version : UInt32
  entries : List SectionEntry
  deriving DecidableEq, Repr

namespace Module

/-- Version 1 without sections. -/
def empty : Module := ⟨1, []⟩

def headers (m : Module) : List SectionHeader :=
  m.entries.map (·.header)

def sections (m : Module) : List Section :=
  m.entries.map (·.payload)

/-- The function types of the first type section. -/
def types? (m : Module) : Option (List FuncType) :=
  m.sections.findSome? fun
    | .types items => some items
    | _ => none

def functions? (m : Module) : Option (List TypeIdx) :=
  m.sections.findSome? fun
    | .functions items => some items
    | _ => none

def memories? (m : Module) : Option (List Limits) :=
  m.sections.findSome? fun
    | .memories items => some items
    | _ => none

def exports? (m : Module) : Option (List Export) :=
  m.sections.findSome? fun
    | .exports items => some items
    | _ => none

def code? (m : Module) : Option (List Body) :=
  m.sections.findSome? fun
    | .code items => some items
    | _ => none

def data? (m : Module) : Option (List DataSegment) :=
  m.sections.findSome? fun
    | .data items => some items
    | _ => none

end Module
end WasmBinary
