import WasmBinary.Index
import WasmBinary.Types.Basic
import WasmBinary.Instruction.Opcode

/-! Instructions in the flat form of the binary format: blocks are not nested, and `else` and
`end` are instructions of their own. -/
namespace WasmBinary

inductive BlockType where
  | empty
  | value (result : ValType)
  | type (index : TypeIdx)
  deriving DecidableEq, Repr

/-- The operands of a memory access: the alignment as a power of two, and the offset. -/
structure MemArg where
  align : UInt32
  offset : UInt32
  deriving DecidableEq, Repr

/-- Operands of a given shape. Floating-point constants are kept as bits. -/
inductive Immediate : Shape → Type where
  | none : Immediate .none
  | block (type : BlockType) : Immediate .blockType
  | label (target : LabelIdx) : Immediate .labelIdx
  | brTable (targets : List LabelIdx) (fallback : LabelIdx) : Immediate .brTable
  | func (callee : FuncIdx) : Immediate .funcIdx
  | callIndirect (type : TypeIdx) (table : TableIdx) : Immediate .callIndirect
  | select (types : List ValType) : Immediate .selectTypes
  | localVar (index : LocalIdx) : Immediate .localIdx
  | globalVar (index : GlobalIdx) : Immediate .globalIdx
  | table (index : TableIdx) : Immediate .tableIdx
  | memArg (arg : MemArg) : Immediate .memArg
  | memory (index : MemIdx) : Immediate .memIdx
  | i32 (n : Int32) : Immediate .i32
  | i64 (n : Int64) : Immediate .i64
  | f32 (bits : UInt32) : Immediate .f32
  | f64 (bits : UInt64) : Immediate .f64
  | ref (type : RefType) : Immediate .refType
  deriving DecidableEq, Repr

/-- An opcode with the operands that it calls for. -/
structure Instruction where
  opcode : Opcode
  immediate : Immediate opcode.shape
  deriving DecidableEq, Repr

/-- Instructions in the order of the file. -/
abbrev Expr := List Instruction

def Instruction.isEnd (i : Instruction) : Bool :=
  i.opcode = .endMark

/-- The number of open blocks after an instruction met inside `depth` of them, or `none` if it
closes the expression itself. -/
def Instruction.depthAfter? (depth : Nat) (i : Instruction) : Option Nat :=
  if i.opcode.opensBlock then some (depth + 1)
  else if i.isEnd then
    match depth with
    | 0 => none
    | d + 1 => some d
  else some depth

end WasmBinary
