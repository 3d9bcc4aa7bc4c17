/-! The opcodes: their bytes, their names and the operands that follow them. -/
namespace WasmBinary

/-- The kind of operands that follow an opcode. -/
inductive Shape where
  | none
  | blockType
  | labelIdx
  | brTable
  | funcIdx
  | callIndirect
  | selectTypes
  | localIdx
  | globalIdx
  | tableIdx
  | memArg
  | memIdx
  | i32
  | i64
  | f32
  | f64
  | refType
  deriving DecidableEq, Repr

def Shape.name : Shape → String
  | .none => "None"
  | .blockType => "BlockType"
  | .labelIdx => "LabelIdx"
  | .brTable => "BrTable"
  | .funcIdx => "FuncIdx"
  | .callIndirect => "CallIndirect"
  | .selectTypes => "SelectTypes"
  | .localIdx => "LocalIdx"
  | .globalIdx => "GlobalIdx"
  | .tableIdx => "TableIdx"
  | .memArg => "Memarg"
  | .memIdx => "MemIdx"
  | .i32 => "I32"
  | .i64 => "I64"
  | .f32 => "F32"
  | .f64 => "F64"
  | .refType => "RefType"

/-- The opcodes of one byte that have a meaning. -/
inductive Opcode where
  | unreachable
  | nop
  | block
  | loop
  | ifBlock
  | elseMark
  | endMark
  | br
  | brIf
  | brTable
  | ret
  | call
  | callIndirect
  | drop
  | select
  | selectTyped
  | localGet
  | localSet
  | localTee
  | globalGet
  | globalSet
  | tableGet
  | tableSet
  | i32Load
  | i64Load
  | f32Load
  | f64Load
  | i32Load8S
  | i32Load8U
  | i32Load16S
  | i32Load16U
  | i64Load8S
  | i64Load8U
  | i64Load16S
  | i64Load16U
  | i64Load32S
  | i64Load32U
  | i32Store
  | i64Store
  | f32Store
  | f64Store
  | i32Store8
  | i32Store16
  | i64Store8
  | i64Store16
  | i64Store32
  | memorySize
  | memoryGrow
  | i32Const
  | i64Const
  | f32Const
  | f64Const
  | i32Eqz
  | i32Eq
  | i32Ne
  | i32LtS
  | i32LtU
  | i32GtS
  | i32GtU
  | i32LeS
  | i32LeU
  | i32GeS
  | i32GeU
  | i64Eqz
  | i64Eq
  | i64Ne
  | i64LtS
  | i64LtU
  | i64GtS
  | i64GtU
  | i64LeS
  | i64LeU
  | i64GeS
  | i64GeU
  | f32Eq
  | f32Ne
  | f32Lt
  | f32Gt
  | f32Le
  | f32Ge
  | f64Eq
  | f64Ne
  | f64Lt
  | f64Gt
  | f64Le
  | f64Ge
  | i32Clz
  | i32Ctz
  | i32Popcnt
  | i32Add
  | i32Sub
  | i32Mul
  | i32DivS
  | i32DivU
  | i32RemS
  | i32RemU
  | i32And
  | i32Or
  | i32Xor
  | i32Shl
  | i32ShrS
  | i32ShrU
  | i32Rotl
  | i32Rotr
  | i64Clz
  | i64Ctz
  | i64Popcnt
  | i64Add
  | i64Sub
  | i64Mul
  | i64DivS
  | i64DivU
  | i64RemS
  | i64RemU
  | i64And
  | i64Or
  | i64Xor
  | i64Shl
  | i64ShrS
  | i64ShrU
  | i64Rotl
  | i64Rotr
  | f32Abs
  | f32Neg
  | f32Ceil
  | f32Floor
  | f32Trunc
  | f32Nearest
  | f32Sqrt
  | f32Add
  | f32Sub
  | f32Mul
  | f32Div
  | f32Min
  | f32Max
  | f32Copysign
  | f64Abs
  | f64Neg
  | f64Ceil
  | f64Floor
  | f64Trunc
  | f64Nearest
  | f64Sqrt
  | f64Add
  | f64Sub
  | f64Mul
  | f64Div
  | f64Min
  | f64Max
  | f64Copysign
  | i32WrapI64
  | i32TruncF32S
  | i32TruncF32U
  | i32TruncF64S
  | i32TruncF64U
  | i64ExtendI32S
  | i64ExtendI32U
  | i64TruncF32S
  | i64TruncF32U
  | i64TruncF64S
  | i64TruncF64U
  | f32ConvertI32S
  | f32ConvertI32U
  | f32ConvertI64S
  | f32ConvertI64U
  | f32DemoteF64
  | f64ConvertI32S
  | f64ConvertI32U
  | f64ConvertI64S
  | f64ConvertI64U
  | f64PromoteF32
  | i32ReinterpretF32
  | i64ReinterpretF64
  | f32ReinterpretI32
  | f64ReinterpretI64
  | i32Extend8S
  | i32Extend16S
  | i64Extend8S
  | i64Extend16S
  | i64Extend32S
  | refNull
  | refIsNull
  | refFunc
  deriving DecidableEq, Repr

namespace Opcode

structure Row where
  byte : UInt8
  name : String
  mnemonic : String
  shape : Shape

def row : Opcode → Row
  | .unreachable => ⟨0x00, "Unreachable", "unreachable", .none⟩
  | .nop => ⟨0x01, "Nop", "nop", .none⟩
  | .block => ⟨0x02, "Block", "block", .blockType⟩
  | .loop => ⟨0x03, "Loop", "loop", .blockType⟩
  | .ifBlock => ⟨0x04, "If", "if", .blockType⟩
  | .elseMark => ⟨0x05, "Else", "else", .none⟩
  | .endMark => ⟨0x0B, "End", "end", .none⟩
  | .br => ⟨0x0C, "Br", "br", .labelIdx⟩
  | .brIf => ⟨0x0D, "BrIf", "br_if", .labelIdx⟩
  | .brTable => ⟨0x0E, "BrTable", "br_table", .brTable⟩
  | .ret => ⟨0x0F, "Return", "return", .none⟩
  | .call => ⟨0x10, "Call", "call", .funcIdx⟩
  | .callIndirect => ⟨0x11, "CallIndirect", "call_indirect", .callIndirect⟩
  | .drop => ⟨0x1A, "Drop", "drop", .none⟩
  | .select => ⟨0x1B, "Select", "select", .none⟩
  | .selectTyped => ⟨0x1C, "SelectT", "select", .selectTypes⟩
  | .localGet => ⟨0x20, "LocalGet", "local.get", .localIdx⟩
  | .localSet => ⟨0x21, "LocalSet", "local.set", .localIdx⟩
  | .localTee => ⟨0x22, "LocalTee", "local.tee", .localIdx⟩
  | .globalGet => ⟨0x23, "GlobalGet", "global.get", .globalIdx⟩
  | .globalSet => ⟨0x24, "GlobalSet", "global.set", .globalIdx⟩
  | .tableGet => ⟨0x25, "TableGet", "table.get", .tableIdx⟩
  | .tableSet => ⟨0x26, "TableSet", "table.set", .tableIdx⟩
  | .i32Load => ⟨0x28, "I32Load", "i32.load", .memArg⟩
  | .i64Load => ⟨0x29, "I64Load", "i64.load", .memArg⟩
  | .f32Load => ⟨0x2A, "F32Load", "f32.load", .memArg⟩
  | .f64Load => ⟨0x2B, "F64Load", "f64.load", .memArg⟩
  | .i32Load8S => ⟨0x2C, "I32Load8S", "i32.load8_s", .memArg⟩
  | .i32Load8U => ⟨0x2D, "I32Load8U", "i32.load8_u", .memArg⟩
  | .i32Load16S => ⟨0x2E, "I32Load16S", "i32.load16_s", .memArg⟩
  | .i32Load16U => ⟨0x2F, "I32Load16U", "i32.load16_u", .memArg⟩
  | .i64Load8S => ⟨0x30, "I64Load8S", "i64.load8_s", .memArg⟩
  | .i64Load8U => ⟨0x31, "I64Load8U", "i64.load8_u", .memArg⟩
  | .i64Load16S => ⟨0x32, "I64Load16S", "i64.load16_s", .memArg⟩
  | .i64Load16U => ⟨0x33, "I64Load16U", "i64.load16_u", .memArg⟩
  | .i64Load32S => ⟨0x34, "I64Load32S", "i64.load32_s", .memArg⟩
  | .i64Load32U => ⟨0x35, "I64Load32U", "i64.load32_u", .memArg⟩
  | .i32Store => ⟨0x36, "I32Store", "i32.store", .memArg⟩
  | .i64Store => ⟨0x37, "I64Store", "i64.store", .memArg⟩
  | .f32Store => ⟨0x38, "F32Store", "f32.store", .memArg⟩
  | .f64Store => ⟨0x39, "F64Store", "f64.store", .memArg⟩
  | .i32Store8 => ⟨0x3A, "I32Store8", "i32.store8", .memArg⟩
  | .i32Store16 => ⟨0x3B, "I32Store16", "i32.store16", .memArg⟩
  | .i64Store8 => ⟨0x3C, "I64Store8", "i64.store8", .memArg⟩
  | .i64Store16 => ⟨0x3D, "I64Store16", "i64.store16", .memArg⟩
  | .i64Store32 => ⟨0x3E, "I64Store32", "i64.store32", .memArg⟩
  | .memorySize => ⟨0x3F, "MemorySize", "memory.size", .memIdx⟩
  | .memoryGrow => ⟨0x40, "MemoryGrow", "memory.grow", .memIdx⟩
  | .i32Const => ⟨0x41, "I32Const", "i32.const", .i32⟩
  | .i64Const => ⟨0x42, "I64Const", "i64.const", .i64⟩
  | .f32Const => ⟨0x43, "F32Const", "f32.const", .f32⟩
  | .f64Const => ⟨0x44, "F64Const", "f64.const", .f64⟩
  | .i32Eqz => ⟨0x45, "I32Eqz", "i32.eqz", .none⟩
  | .i32Eq => ⟨0x46, "I32Eq", "i32.eq", .none⟩
  | .i32Ne => ⟨0x47, "I32Ne", "i32.ne", .none⟩
  | .i32LtS => ⟨0x48, "I32LtS", "i32.lt_s", .none⟩
  | .i32LtU => ⟨0x49, "I32LtU", "i32.lt_u", .none⟩
  | .i32GtS => ⟨0x4A, "I32GtS", "i32.gt_s", .none⟩
  | .i32GtU => ⟨0x4B, "I32GtU", "i32.gt_u", .none⟩
  | .i32LeS => ⟨0x4C, "I32LeS", "i32.le_s", .none⟩
  | .i32LeU => ⟨0x4D, "I32LeU", "i32.le_u", .none⟩
  | .i32GeS => ⟨0x4E, "I32GeS", "i32.ge_s", .none⟩
  | .i32GeU => ⟨0x4F, "I32GeU", "i32.ge_u", .none⟩
  | .i64Eqz => ⟨0x50, "I64Eqz", "i64.eqz", .none⟩
  | .i64Eq => ⟨0x51, "I64Eq", "i64.eq", .none⟩
  | .i64Ne => ⟨0x52, "I64Ne", "i64.ne", .none⟩
  | .i64LtS => ⟨0x53, "I64LtS", "i64.lt_s", .none⟩
  | .i64LtU => ⟨0x54, "I64LtU", "i64.lt_u", .none⟩
  | .i64GtS => ⟨0x55, "I64GtS", "i64.gt_s", .none⟩
  | .i64GtU => ⟨0x56, "I64GtU", "i64.gt_u", .none⟩
  | .i64LeS => ⟨0x57, "I64LeS", "i64.le_s", .none⟩
  | .i64LeU => ⟨0x58, "I64LeU", "i64.le_u", .none⟩
  | .i64GeS => ⟨0x59, "I64GeS", "i64.ge_s", .none⟩
  | .i64GeU => ⟨0x5A, "I64GeU", "i64.ge_u", .none⟩
  | .f32Eq => ⟨0x5B, "F32Eq", "f32.eq", .none⟩
  | .f32Ne => ⟨0x5C, "F32Ne", "f32.ne", .none⟩
  | .f32Lt => ⟨0x5D, "F32Lt", "f32.lt", .none⟩
  | .f32Gt => ⟨0x5E, "F32Gt", "f32.gt", .none⟩
  | .f32Le => ⟨0x5F, "F32Le", "f32.le", .none⟩
  | .f32Ge => ⟨0x60, "F32Ge", "f32.ge", .none⟩
  | .f64Eq => ⟨0x61, "F64Eq", "f64.eq", .none⟩
  | .f64Ne => ⟨0x62, "F64Ne", "f64.ne", .none⟩
  | .f64Lt => ⟨0x63, "F64Lt", "f64.lt", .none⟩
  | .f64Gt => ⟨0x64, "F64Gt", "f64.gt", .none⟩
  | .f64Le => ⟨0x65, "F64Le", "f64.le", .none⟩
  | .f64Ge => ⟨0x66, "F64Ge", "f64.ge", .none⟩
  | .i32Clz => ⟨0x67, "I32Clz", "i32.clz", .none⟩
  | .i32Ctz => ⟨0x68, "I32Ctz", "i32.ctz", .none⟩
  | .i32Popcnt => ⟨0x69, "I32Popcnt", "i32.popcnt", .none⟩
  | .i32Add => ⟨0x6A, "I32Add", "i32.add", .none⟩
  | .i32Sub => ⟨0x6B, "I32Sub", "i32.sub", .none⟩
  | .i32Mul => ⟨0x6C, "I32Mul", "i32.mul", .none⟩
  | .i32DivS => ⟨0x6D, "I32DivS", "i32.div_s", .none⟩
  | .i32DivU => ⟨0x6E, "I32DivU", "i32.div_u", .none⟩
  | .i32RemS => ⟨0x6F, "I32RemS", "i32.rem_s", .none⟩
  | .i32RemU => ⟨0x70, "I32RemU", "i32.rem_u", .none⟩
  | .i32And => ⟨0x71, "I32And", "i32.and", .none⟩
  | .i32Or => ⟨0x72, "I32Or", "i32.or", .none⟩
  | .i32Xor => ⟨0x73, "I32Xor", "i32.xor", .none⟩
  | .i32Shl => ⟨0x74, "I32Shl", "i32.shl", .none⟩
  | .i32ShrS => ⟨0x75, "I32ShrS", "i32.shr_s", .none⟩
  | .i32ShrU => ⟨0x76, "I32ShrU", "i32.shr_u", .none⟩
  | .i32Rotl => ⟨0x77, "I32Rotl", "i32.rotl", .none⟩
  | .i32Rotr => ⟨0x78, "I32Rotr", "i32.rotr", .none⟩
  | .i64Clz => ⟨0x79, "I64Clz", "i64.clz", .none⟩
  | .i64Ctz => ⟨0x7A, "I64Ctz", "i64.ctz", .none⟩
  | .i64Popcnt => ⟨0x7B, "I64Popcnt", "i64.popcnt", .none⟩
  | .i64Add => ⟨0x7C, "I64Add", "i64.add", .none⟩
  | .i64Sub => ⟨0x7D, "I64Sub", "i64.sub", .none⟩
  | .i64Mul => ⟨0x7E, "I64Mul", "i64.mul", .none⟩
  | .i64DivS => ⟨0x7F, "I64DivS", "i64.div_s", .none⟩
  | .i64DivU => ⟨0x80, "I64DivU", "i64.div_u", .none⟩
  | .i64RemS => ⟨0x81, "I64RemS", "i64.rem_s", .none⟩
  | .i64RemU => ⟨0x82, "I64RemU", "i64.rem_u", .none⟩
  | .i64And => ⟨0x83, "I64And", "i64.and", .none⟩
  | .i64Or => ⟨0x84, "I64Or", "i64.or", .none⟩
  | .i64Xor => ⟨0x85, "I64Xor", "i64.xor", .none⟩
  | .i64Shl => ⟨0x86, "I64Shl", "i64.shl", .none⟩
  | .i64ShrS => ⟨0x87, "I64ShrS", "i64.shr_s", .none⟩
  | .i64ShrU => ⟨0x88, "I64ShrU", "i64.shr_u", .none⟩
  | .i64Rotl => ⟨0x89, "I64Rotl", "i64.rotl", .none⟩
  | .i64Rotr => ⟨0x8A, "I64Rotr", "i64.rotr", .none⟩
  | .f32Abs => ⟨0x8B, "F32Abs", "f32.abs", .none⟩
  | .f32Neg => ⟨0x8C, "F32Neg", "f32.neg", .none⟩
  | .f32Ceil => ⟨0x8D, "F32Ceil", "f32.ceil", .none⟩
  | .f32Floor => ⟨0x8E, "F32Floor", "f32.floor", .none⟩
  | .f32Trunc => ⟨0x8F, "F32Trunc", "f32.trunc", .none⟩
  | .f32Nearest => ⟨0x90, "F32Nearest", "f32.nearest", .none⟩
  | .f32Sqrt => ⟨0x91, "F32Sqrt", "f32.sqrt", .none⟩
  | .f32Add => ⟨0x92, "F32Add", "f32.add", .none⟩
  | .f32Sub => ⟨0x93, "F32Sub", "f32.sub", .none⟩
  | .f32Mul => ⟨0x94, "F32Mul", "f32.mul", .none⟩
  | .f32Div => ⟨0x95, "F32Div", "f32.div", .none⟩
  | .f32Min => ⟨0x96, "F32Min", "f32.min", .none⟩
  | .f32Max => ⟨0x97, "F32Max", "f32.max", .none⟩
  | .f32Copysign => ⟨0x98, "F32Copysign", "f32.copysign", .none⟩
  | .f64Abs => ⟨0x99, "F64Abs", "f64.abs", .none⟩
  | .f64Neg => ⟨0x9A, "F64Neg", "f64.neg", .none⟩
  | .f64Ceil => ⟨0x9B, "F64Ceil", "f64.ceil", .none⟩
  | .f64Floor => ⟨0x9C, "F64Floor", "f64.floor", .none⟩
  | .f64Trunc => ⟨0x9D, "F64Trunc", "f64.trunc", .none⟩
  | .f64Nearest => ⟨0x9E, "F64Nearest", "f64.nearest", .none⟩
  | .f64Sqrt => ⟨0x9F, "F64Sqrt", "f64.sqrt", .none⟩
  | .f64Add => ⟨0xA0, "F64Add", "f64.add", .none⟩
  | .f64Sub => ⟨0xA1, "F64Sub", "f64.sub", .none⟩
  | .f64Mul => ⟨0xA2, "F64Mul", "f64.mul", .none⟩
  | .f64Div => ⟨0xA3, "F64Div", "f64.div", .none⟩
  | .f64Min => ⟨0xA4, "F64Min", "f64.min", .none⟩
  | .f64Max => ⟨0xA5, "F64Max", "f64.max", .none⟩
  | .f64Copysign => ⟨0xA6, "F64Copysign", "f64.copysign", .none⟩
  | .i32WrapI64 => ⟨0xA7, "I32WrapI64", "i32.wrap_i64", .none⟩
  | .i32TruncF32S => ⟨0xA8, "I32TruncF32S", "i32.trunc_f32_s", .none⟩
  | .i32TruncF32U => ⟨0xA9, "I32TruncF32U", "i32.trunc_f32_u", .none⟩
  | .i32TruncF64S => ⟨0xAA, "I32TruncF64S", "i32.trunc_f64_s", .none⟩
  | .i32TruncF64U => ⟨0xAB, "I32TruncF64U", "i32.trunc_f64_u", .none⟩
  | .i64ExtendI32S => ⟨0xAC, "I64ExtendI32S", "i64.extend_i32_s", .none⟩
  | .i64ExtendI32U => ⟨0xAD, "I64ExtendI32U", "i64.extend_i32_u", .none⟩
  | .i64TruncF32S => ⟨0xAE, "I64TruncF32S", "i64.trunc_f32_s", .none⟩
  | .i64TruncF32U => ⟨0xAF, "I64TruncF32U", "i64.trunc_f32_u", .none⟩
  | .i64TruncF64S => ⟨0xB0, "I64TruncF64S", "i64.trunc_f64_s", .none⟩
  | .i64TruncF64U => ⟨0xB1, "I64TruncF64U", "i64.trunc_f64_u", .none⟩
  | .f32ConvertI32S => ⟨0xB2, "F32ConvertI32S", "f32.convert_i32_s", .none⟩
  | .f32ConvertI32U => ⟨0xB3, "F32ConvertI32U", "f32.convert_i32_u", .none⟩
  | .f32ConvertI64S => ⟨0xB4, "F32ConvertI64S", "f32.convert_i64_s", .none⟩
  | .f32ConvertI64U => ⟨0xB5, "F32ConvertI64U", "f32.convert_i64_u", .none⟩
  | .f32DemoteF64 => ⟨0xB6, "F32DemoteF64", "f32.demote_f64", .none⟩
  | .f64ConvertI32S => ⟨0xB7, "F64ConvertI32S", "f64.convert_i32_s", .none⟩
  | .f64ConvertI32U => ⟨0xB8, "F64ConvertI32U", "f64.convert_i32_u", .none⟩
  | .f64ConvertI64S => ⟨0xB9, "F64ConvertI64S", "f64.convert_i64_s", .none⟩
  | .f64ConvertI64U => ⟨0xBA, "F64ConvertI64U", "f64.convert_i64_u", .none⟩
  | .f64PromoteF32 => ⟨0xBB, "F64PromoteF32", "f64.promote_f32", .none⟩
  | .i32ReinterpretF32 => ⟨0xBC, "I32ReinterpretF32", "i32.reinterpret_f32", .none⟩
  | .i64ReinterpretF64 => ⟨0xBD, "I64ReinterpretF64", "i64.reinterpret_f64", .none⟩
  | .f32ReinterpretI32 => ⟨0xBE, "F32ReinterpretI32", "f32.reinterpret_i32", .none⟩
  | .f64ReinterpretI64 => ⟨0xBF, "F64ReinterpretI64", "f64.reinterpret_i64", .none⟩
  | .i32Extend8S => ⟨0xC0, "I32Extend8S", "i32.extend8_s", .none⟩
  | .i32Extend16S => ⟨0xC1, "I32Extend16S", "i32.extend16_s", .none⟩
  | .i64Extend8S => ⟨0xC2, "I64Extend8S", "i64.extend8_s", .none⟩
  | .i64Extend16S => ⟨0xC3, "I64Extend16S", "i64.extend16_s", .none⟩
  | .i64Extend32S => ⟨0xC4, "I64Extend32S", "i64.extend32_s", .none⟩
  | .refNull => ⟨0xD0, "RefNull", "ref.null", .refType⟩
  | .refIsNull => ⟨0xD1, "RefIsNull", "ref.is_null", .none⟩
  | .refFunc => ⟨0xD2, "RefFunc", "ref.func", .funcIdx⟩

/-- Every opcode, in the order of their bytes. -/
def all : List Opcode := [
  .unreachable, .nop, .block, .loop, .ifBlock, .elseMark, .endMark, .br, .brIf, .brTable, .ret,
  .call, .callIndirect, .drop, .select, .selectTyped, .localGet, .localSet, .localTee, .globalGet,
  .globalSet, .tableGet, .tableSet, .i32Load, .i64Load, .f32Load, .f64Load, .i32Load8S, .i32Load8U,
  .i32Load16S, .i32Load16U, .i64Load8S, .i64Load8U, .i64Load16S, .i64Load16U, .i64Load32S,
  .i64Load32U, .i32Store, .i64Store, .f32Store, .f64Store, .i32Store8, .i32Store16, .i64Store8,
  .i64Store16, .i64Store32, .memorySize, .memoryGrow, .i32Const, .i64Const, .f32Const, .f64Const,
  .i32Eqz, .i32Eq, .i32Ne, .i32LtS, .i32LtU, .i32GtS, .i32GtU, .i32LeS, .i32LeU, .i32GeS, .i32GeU,
  .i64Eqz, .i64Eq, .i64Ne, .i64LtS, .i64LtU, .i64GtS, .i64GtU, .i64LeS, .i64LeU, .i64GeS, .i64GeU,
  .f32Eq, .f32Ne, .f32Lt, .f32Gt, .f32Le, .f32Ge, .f64Eq, .f64Ne, .f64Lt, .f64Gt, .f64Le, .f64Ge,
  .i32Clz, .i32Ctz, .i32Popcnt, .i32Add, .i32Sub, .i32Mul, .i32DivS, .i32DivU, .i32RemS, .i32RemU,
  .i32And, .i32Or, .i32Xor, .i32Shl, .i32ShrS, .i32ShrU, .i32Rotl, .i32Rotr, .i64Clz, .i64Ctz,
  .i64Popcnt, .i64Add, .i64Sub, .i64Mul, .i64DivS, .i64DivU, .i64RemS, .i64RemU, .i64And, .i64Or,
  .i64Xor, .i64Shl, .i64ShrS, .i64ShrU, .i64Rotl, .i64Rotr, .f32Abs, .f32Neg, .f32Ceil, .f32Floor,
  .f32Trunc, .f32Nearest, .f32Sqrt, .f32Add, .f32Sub, .f32Mul, .f32Div, .f32Min, .f32Max,
  .f32Copysign, .f64Abs, .f64Neg, .f64Ceil, .f64Floor, .f64Trunc, .f64Nearest, .f64Sqrt, .f64Add,
  .f64Sub, .f64Mul, .f64Div, .f64Min, .f64Max, .f64Copysign, .i32WrapI64, .i32TruncF32S,
  .i32TruncF32U, .i32TruncF64S, .i32TruncF64U, .i64ExtendI32S, .i64ExtendI32U, .i64TruncF32S,
  .i64TruncF32U, .i64TruncF64S, .i64TruncF64U, .f32ConvertI32S, .f32ConvertI32U, .f32ConvertI64S,
  .f32ConvertI64U, .f32DemoteF64, .f64ConvertI32S, .f64ConvertI32U, .f64ConvertI64S,
  .f64ConvertI64U, .f64PromoteF32, .i32ReinterpretF32, .i64ReinterpretF64, .f32ReinterpretI32,
  .f64ReinterpretI64, .i32Extend8S, .i32Extend16S, .i64Extend8S, .i64Extend16S, .i64Extend32S,
  .refNull, .refIsNull, .refFunc]

def byte (op : Opcode) : UInt8 := op.row.byte

def name (op : Opcode) : String := op.row.name

def mnemonic (op : Opcode) : String := op.row.mnemonic

def shape (op : Opcode) : Shape := op.row.shape

def ofByte? (b : UInt8) : Option Opcode :=
  all.find? fun op => op.byte = b

/-- The opcodes that open a block, which a later `end` closes. -/
def opensBlock : Opcode → Bool
  | .block | .loop | .ifBlock => true
  | _ => false

end Opcode
end WasmBinary
