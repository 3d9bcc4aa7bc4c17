import WasmBinary.Instruction.Basic

/-! Sections: their ids, their headers and the items they hold. -/
namespace WasmBinary

inductive SectionId where
  | custom
  | types
  | imports
  | functions
  | tables
  | memories
  | globals
  | exports
  | start
  | elements
  | code
  | data
  | dataCount
  deriving DecidableEq, Repr

namespace SectionId

/-- In the order of their bytes. -/
def all : List SectionId :=
  [.custom, .types, .imports, .functions, .tables, .memories, .globals, .exports, .start, .elements,
    .code, .data, .dataCount]

def marker : SectionId → UInt8
  | .custom => 0
  | .types => 1
  | .imports => 2
  | .functions => 3
  | .tables => 4
  | .memories => 5
  | .globals => 6
  | .exports => 7
  | .start => 8
  | .elements => 9
  | .code => 10
  | .data => 11
  | .dataCount => 12

def ofMarker? (b : UInt8) : Option SectionId :=
  all.find? fun id => id.marker = b

def name : SectionId → String
  | .custom => "Custom"
  | .types => "Type"
  | .imports => "Import"
  | .functions => "Function"
  | .tables => "Table"
  | .memories => "Memory"
  | .globals => "Global"
  | .exports => "Export"
  | .start => "Start"
  | .elements => "Element"
  | .code => "Code"
  | .data => "Data"
  | .dataCount => "DataCount"

/-- The sections whose size is read. An import section is among them, and refused afterwards. -/
def isDecodable : SectionId → Bool
  | .types | .imports | .functions | .memories | .exports | .code | .data => true
  | _ => false

end SectionId

/-- The framing of a section: its id, its declared size, and where its payload begins. -/
structure SectionHeader where
  id : SectionId
  size : UInt32
  offset : Nat
  deriving DecidableEq, Repr

inductive ExportTarget where
  | function (index : FuncIdx)
  | memory (index : MemIdx)
  deriving DecidableEq, Repr

structure Export where
  name : String
  target : ExportTarget
  deriving DecidableEq, Repr

/-- A run of `count` locals of one type. -/
structure LocalGroup where
  count : UInt32
  type : ValType
  deriving DecidableEq, Repr

namespace LocalGroup

def slots : List LocalGroup → Nat
  | [] => 0
  | g :: gs => g.count.toNat + slots gs

/-- The type of every slot, in order. -/
def expand (gs : List LocalGroup) : List ValType :=
  gs.flatMap fun g => List.replicate g.count.toNat g.type

/-- The types of the first `n` slots, without expanding the rest. -/
def firstSlots : Nat → List LocalGroup → List ValType
  | _, [] => []
  | n, g :: gs => List.replicate (min n g.count.toNat) g.type ++ firstSlots (n - g.count.toNat) gs

theorem firstSlots_eq_take (n : Nat) (gs : List LocalGroup) :
    firstSlots n gs = (expand gs).take n := by
  induction gs generalizing n with
  | nil => simp [firstSlots, expand]
  | cons g gs ih =>
    simp only [expand] at ih
    simp [firstSlots, expand, ih, List.take_append]

end LocalGroup

/-- A function body of `size` declared bytes. -/
structure Body where
  size : UInt32
  locals : List LocalGroup
  instructions : Expr
  deriving DecidableEq, Repr

/-- Bytes to be copied into a memory, at the place that the expression `offset` computes. -/
structure DataSegment where
  memory : MemIdx
  offset : Expr
  init : List UInt8
  deriving DecidableEq, Repr

inductive Section where
  | types (items : List FuncType)
  | functions (items : List TypeIdx)
  | memories (items : List Limits)
  | exports (items : List Export)
  | code (items : List Body)
  | data (items : List DataSegment)
  deriving DecidableEq, Repr

namespace Section

def id : Section → SectionId
  | .types _ => .types
  | .functions _ => .functions
  | .memories _ => .memories
  | .exports _ => .exports
  | .code _ => .code
  | .data _ => .data

def size : Section → Nat
  | .types items => items.length
  | .functions items => items.length
  | .memories items => items.length
  | .exports items => items.length
  | .code items => items.length
  | .data items => items.length

def isEmpty (s : Section) : Bool :=
  s.size = 0

/-- The section without items, for the ids that have one. -/
def empty? : SectionId → Option Section
  | .types => some (.types [])
  | .functions => some (.functions [])
  | .memories => some (.memories [])
  | .exports => some (.exports [])
  | .code => some (.code [])
  | .data => some (.data [])
  | _ => none

end Section

structure SectionEntry where
  header : SectionHeader
  payload : Section
  deriving DecidableEq, Repr

end WasmBinary
