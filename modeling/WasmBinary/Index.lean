/-! Indices into the index spaces of a module. -/
namespace WasmBinary

inductive IndexSpace where
  | types
  | funcs
  | tables
  | memories
  | globals
  | locals
  | labels
  deriving DecidableEq, Repr

/-- An index into one space; indices into different spaces do not mix. -/
structure Index (space : IndexSpace) where
  value : UInt32
  deriving DecidableEq, Repr

abbrev TypeIdx := Index .types
abbrev FuncIdx := Index .funcs
abbrev TableIdx := Index .tables
abbrev MemIdx := Index .memories
abbrev GlobalIdx := Index .globals
abbrev LocalIdx := Index .locals
abbrev LabelIdx := Index .labels

def IndexSpace.indexName : IndexSpace → String
  | .types => "TypeIdx"
  | .funcs => "FuncIdx"
  | .tables => "TableIdx"
  | .memories => "MemIdx"
  | .globals => "GlobalIdx"
  | .locals => "LocalIdx"
  | .labels => "LabelIdx"

def Index.text {space : IndexSpace} (i : Index space) : String :=
  toString i.value.toNat

end WasmBinary
