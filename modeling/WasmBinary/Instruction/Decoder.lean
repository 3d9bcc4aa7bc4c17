import WasmBinary.Instruction.Basic
import WasmBinary.Types.Decoder

/-! Decoders of instructions and expressions. -/
namespace WasmBinary

open Decoder

def Index.decode {space : IndexSpace} : Decoder (Index space) :=
  Index.mk <$> Leb128.u32

/-- Goes on after the first byte `b`, which stands at `offset`. -/
def BlockType.decodeAfter (offset : Nat) (b : UInt8) : Decoder BlockType :=
  if b = 0x40 then return .empty
  else if 0x40 ≤ b ∧ b < 0x80 then
    match ValType.ofMarker? b with
    | some t => return .value t
    | none => failAt offset (.invalidValType b)
  else do
    let index ← Leb128.signedFrom 33 offset (Leb128.moreBytes 33) 33 b
    if 0 ≤ index then return .type ⟨UInt32.ofNat index.toNat⟩
    else failAt offset (.invalidValType b)

/-- A block type is a signed integer of 33 bits, non-negative for a type index. The other types are
negative and told by a first byte that ends the integer. -/
def BlockType.decode : Decoder BlockType := do
  let offset ← position
  BlockType.decodeAfter offset (← byte)

/-- The number whose bytes are given, least significant one first. -/
def littleEndian : List UInt8 → Nat
  | [] => 0
  | b :: bs => b.toNat + 256 * littleEndian bs

def Immediate.decode : (s : Shape) → Decoder (Immediate s)
  | .none => return .none
  | .blockType => .block <$> BlockType.decode
  | .labelIdx => .label <$> Index.decode
  | .brTable => do
    let targets ← vector Index.decode
    let fallback ← Index.decode
    return .brTable targets fallback
  | .funcIdx => .func <$> Index.decode
  | .callIndirect => do
    let type ← Index.decode
    let table ← Index.decode
    return .callIndirect type table
  | .selectTypes => .select <$> vector ValType.decode
  | .localIdx => .localVar <$> Index.decode
  | .globalIdx => .globalVar <$> Index.decode
  | .tableIdx => .table <$> Index.decode
  | .memArg => do
    let align ← Leb128.u32
    let offset ← Leb128.u32
    return .memArg ⟨align, offset⟩
  | .memIdx => .memory <$> Index.decode
  | .i32 => .i32 <$> Leb128.i32
  | .i64 => .i64 <$> Leb128.i64
  | .f32 => do return .f32 (UInt32.ofNat (littleEndian (← bytes 4)))
  | .f64 => do return .f64 (UInt64.ofNat (littleEndian (← bytes 8)))
  | .refType => .ref <$> RefType.decode

def Instruction.decode : Decoder Instruction := do
  let opcode ← marker Opcode.ofByte? .unknownOpcode
  let immediate ← Immediate.decode opcode.shape
  return ⟨opcode, immediate⟩

theorem Index.advances_decode {space : IndexSpace} :
    Advances (Index.decode : Decoder (Index space)) :=
  Leb128.advances_u32.map _

theorem BlockType.nonGrowing_decodeAfter (offset : Nat) (b : UInt8) :
    NonGrowing (BlockType.decodeAfter offset b) := by
  unfold BlockType.decodeAfter
  split
  · exact nonGrowing_pure _
  · split
    · split
      · exact nonGrowing_pure _
      · exact (advances_failAt _ _).nonGrowing
    · refine (Leb128.nonGrowing_signedFrom _ _ _ _ _).bind fun index => ?_
      split
      · exact nonGrowing_pure _
      · exact (advances_failAt _ _).nonGrowing

theorem BlockType.advances_decode : Advances BlockType.decode :=
  nonGrowing_position.bind_advances fun offset => advances_byte.bind fun b =>
    BlockType.nonGrowing_decodeAfter offset b

theorem Immediate.nonGrowing_decode (s : Shape) : NonGrowing (Immediate.decode s) := by
  have index {space : IndexSpace} : NonGrowing (Index.decode : Decoder (Index space)) :=
    Index.advances_decode.nonGrowing
  have u32 := Leb128.advances_u32.nonGrowing
  cases s with
  | none => exact nonGrowing_pure _
  | blockType => exact BlockType.advances_decode.nonGrowing.map _
  | brTable =>
    exact (advances_vector index).nonGrowing.bind fun _ => index.bind fun _ => nonGrowing_pure _
  | callIndirect => exact index.bind fun _ => index.bind fun _ => nonGrowing_pure _
  | selectTypes => exact (advances_vector ValType.advances_decode.nonGrowing).nonGrowing.map _
  | memArg => exact u32.bind fun _ => u32.bind fun _ => nonGrowing_pure _
  | i32 => exact Leb128.advances_i32.nonGrowing.map _
  | i64 => exact Leb128.advances_i64.nonGrowing.map _
  | f32 => exact (nonGrowing_bytes 4).bind fun _ => nonGrowing_pure _
  | f64 => exact (nonGrowing_bytes 8).bind fun _ => nonGrowing_pure _
  | refType => exact RefType.advances_decode.nonGrowing.map _
  | _ => exact index.map _

theorem Instruction.advances_decode : Advances Instruction.decode :=
  (advances_marker _ _).bind fun opcode =>
    (Immediate.nonGrowing_decode opcode.shape).bind fun _ => nonGrowing_pure _

/-- Instructions up to and including the `end` that closes the expression. -/
def Expr.decode : Decoder Expr :=
  collectUntil Instruction.depthAfter? Instruction.decode Instruction.advances_decode 0

theorem Expr.advances_decode : Advances Expr.decode :=
  advances_collectUntil _ _ _

end WasmBinary
