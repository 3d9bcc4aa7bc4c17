import WasmBinary.Module.Decoder

/-! Sessions: a cursor that is asked for one thing after another, with marks to measure from. A
request that fails does not end the session. -/
namespace WasmBinary

inductive ItemKind where
  | byte
  | u32
  | i32
  | name
  | instruction
  | bytes
  deriving DecidableEq, Repr

inductive Request where
  | byte
  | read (count : Nat)
  | bytes (count : Nat)
  | u32
  | i32
  | u64
  | s33
  | i64
  | name
  | instruction
  | expr
  | body (declared : UInt32)
  | list (kind : ItemKind)
  | entry
  /-- The payload of a section, without framing. -/
  | payload (id : SectionId)
  | mark
  /-- The number of bytes read since a mark, by its number. -/
  | since (mark : Nat)
  deriving DecidableEq, Repr

inductive Answer where
  | byte (b : UInt8)
  | bytes (bs : List UInt8)
  | u32 (n : UInt32)
  | i32 (n : Int32)
  | u64 (n : UInt64)
  | s33 (n : Int)
  | i64 (n : Int64)
  | name (s : String)
  | instruction (i : Instruction)
  | expr (e : Expr)
  | body (b : Body)
  | list (items : List Answer)
  | entry (e : SectionEntry)
  | payload (s : Section)
  | offset (n : Nat)
  | consumed (n : Option Nat)

structure Session where
  cursor : Cursor
  /-- The positions marked so far, in order. -/
  marks : List Nat

def ItemKind.decoder : ItemKind → Decoder Answer
  | .byte => .byte <$> Decoder.byte
  | .u32 => .u32 <$> Leb128.u32
  | .i32 => .i32 <$> Leb128.i32
  | .name => .name <$> Decoder.name
  | .instruction => .instruction <$> Instruction.decode
  | .bytes => (fun bs => .list (bs.map .byte)) <$> Decoder.vector Decoder.byte

namespace Session

def ofStream (s : Stream) : Except DecodeError Session :=
  (Cursor.ofStream s).map fun c => ⟨c, []⟩

/-- Lets a decoder work on the cursor of a session. -/
def decode (s : Session) (d : Decoder Answer) : Except DecodeError Answer × Session :=
  match d s.cursor with
  | .ok a c => (.ok a, { s with cursor := c })
  | .error e c => (.error e, { s with cursor := c })

def answer (s : Session) : Request → Except DecodeError Answer × Session
  | .byte => s.decode (.byte <$> Decoder.byte)
  | .read count => s.decode (.bytes <$> Decoder.read count)
  | .bytes count => s.decode (.bytes <$> Decoder.bytes count)
  | .u32 => s.decode (.u32 <$> Leb128.u32)
  | .i32 => s.decode (.i32 <$> Leb128.i32)
  | .u64 => s.decode (.u64 <$> Leb128.u64)
  | .s33 => s.decode (.s33 <$> Leb128.s33)
  | .i64 => s.decode (.i64 <$> Leb128.i64)
  | .name => s.decode (.name <$> Decoder.name)
  | .instruction => s.decode (.instruction <$> Instruction.decode)
  | .expr => s.decode (.expr <$> Expr.decode)
  | .body declared => s.decode (.body <$> Body.decode declared)
  | .list kind => s.decode (.list <$> Decoder.vector kind.decoder)
  | .entry => s.decode (.entry <$> SectionEntry.decode)
  | .payload id => s.decode (.payload <$> Section.decodePayload id)
  | .mark => (.ok (.offset s.cursor.position), { s with marks := s.marks ++ [s.cursor.position] })
  | .since mark => (.ok (.consumed (s.marks[mark]?.map (s.cursor.position - ·))), s)

/-- Answers requests one by one, with the cursor as each of them leaves it. -/
def run (s : Session) : List Request → List (Except DecodeError Answer × Cursor) × Session
  | [] => ([], s)
  | r :: rs =>
    let (a, s) := s.answer r
    let (answers, last) := s.run rs
    ((a, s.cursor) :: answers, last)

end Session
end WasmBinary
