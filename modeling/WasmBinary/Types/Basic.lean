/-! Value types, reference types, function types and memory limits. -/
namespace WasmBinary

inductive ValType where
  | i32
  | i64
  | f32
  | f64
  deriving DecidableEq, Repr

namespace ValType

/-- In the order in which messages list them. -/
def all : List ValType := [.i32, .i64, .f32, .f64]

def marker : ValType → UInt8
  | .i32 => 0x7F
  | .i64 => 0x7E
  | .f32 => 0x7D
  | .f64 => 0x7C

def ofMarker? (b : UInt8) : Option ValType :=
  all.find? fun t => t.marker = b

def name : ValType → String
  | .i32 => "I32"
  | .i64 => "I64"
  | .f32 => "F32"
  | .f64 => "F64"

def text : ValType → String
  | .i32 => "i32"
  | .i64 => "i64"
  | .f32 => "f32"
  | .f64 => "f64"

end ValType

/-- The types of references, which occur as the operand of `ref.null` only. -/
inductive RefType where
  | func
  | external
  deriving DecidableEq, Repr

structure FuncType where
  params : List ValType
  results : List ValType
  deriving DecidableEq, Repr

/-- Types between parentheses, divided by commas. -/
def ValType.listText (ts : List ValType) : String :=
  "(" ++ String.intercalate ", " (ts.map ValType.text) ++ ")"

def FuncType.text (t : FuncType) : String :=
  ValType.listText t.params ++ " -> " ++ ValType.listText t.results

/-- The size range of a memory in pages. -/
structure Limits where
  min : UInt32
  max : Option UInt32
  deriving DecidableEq, Repr

end WasmBinary
