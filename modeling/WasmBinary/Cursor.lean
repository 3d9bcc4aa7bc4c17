import WasmBinary.Error
import WasmBinary.Log
import WasmBinary.Stream.Lemmas

/-! Cursors: a stream under decoding, with a count of the bytes read. Decoders are functions on
cursors, and a failed decoder leaves its cursor behind as a successful one does. -/
namespace WasmBinary

structure Cursor where
  /-- The bytes that the stream will still deliver. -/
  pending : List UInt8
  /-- How the stream stops after them. -/
  stop : Stop
  /-- The number of bytes read successfully. -/
  position : Nat
  /-- The number of bytes that the stream seemed to hold at first. -/
  totalSize : Nat
  /-- The end of the region that the current section may occupy. -/
  bound : Nat
  log : Array Event
  deriving DecidableEq, Repr

namespace Cursor

def ofBytes (bs : List UInt8) : Cursor :=
  ⟨bs, .endOfInput, 0, bs.length, bs.length, #[]⟩

/-- The number of seek calls that opening a stream takes: position, end, and back. -/
def openingSeeks : Nat := 3

/-- A cursor at the position of the stream. -/
def ofStream (s : Stream) : Except DecodeError Cursor :=
  if s.failingSeek.any fun n => 1 ≤ n && n ≤ openingSeeks then .error ⟨.io "seek failed", 0, none⟩
  else
    let (pending, stop) := s.contents
    .ok ⟨pending, stop, 0, s.size, s.size, #[]⟩

theorem ofStream_ofBytes (bs : List UInt8) : ofStream (.ofBytes bs 0) = .ok (ofBytes bs) := by
  unfold ofStream
  rw [Stream.contents_of_fault_eq_none _ rfl]
  rfl

def remaining (c : Cursor) : Nat :=
  c.totalSize - c.position

def isAtEnd (c : Cursor) : Bool :=
  c.totalSize ≤ c.position

end Cursor

/-- Why a read of `wanted` bytes fails. -/
def Stop.cause (wanted : Nat) : Stop → Cause
  | .endOfInput => .unexpectedEnd wanted
  | .failure reason => .io reason

abbrev Decoder := EStateM DecodeError Cursor

namespace Decoder

variable {α β : Type}

def position : Decoder Nat := fun c =>
  .ok c.position c

def failAt (offset : Nat) (cause : Cause) : Decoder α :=
  throw ⟨cause, offset, none⟩

def fail (cause : Cause) : Decoder α := fun c =>
  .error ⟨cause, c.position, none⟩ c

def report (e : Event) : Decoder Unit := fun c =>
  .ok () { c with log := c.log.push e }

def byte : Decoder UInt8 := fun c =>
  match c.pending with
  | [] => .error ⟨c.stop.cause 1, c.position, none⟩ c
  | b :: bs => .ok b { c with pending := bs, position := c.position + 1 }

/-- The next `n` bytes. If the stream has fewer they are lost: the stream has moved to where it
stops, though the position still counts from before. -/
def bytes (n : Nat) : Decoder (List UInt8) := fun c =>
  let (bs, rest) := c.pending.splitAt n
  if bs.length = n then .ok bs { c with pending := rest, position := c.position + n }
  else .error ⟨c.stop.cause n, c.position, none⟩ { c with pending := [] }

/-- The next `n` bytes, refused at once if the stream does not seem to hold so many. -/
def read (n : Nat) : Decoder (List UInt8) := fun c =>
  if c.remaining < n then fail (.unexpectedEnd n) c else bytes n c

/-- The meaning of the next byte, by a table of markers. -/
def marker (meaning? : UInt8 → Option α) (otherwise : UInt8 → Cause) : Decoder α := do
  let offset ← position
  let b ← byte
  match meaning? b with
  | some a => return a
  | none => failAt offset (otherwise b)

def inSection (id : SectionId) (d : Decoder α) : Decoder α := fun c =>
  match d c with
  | .ok a c => .ok a c
  | .error e c => .error (e.inSection id) c

/-- Confines a decoder to the region that ends at `bound`. -/
def withBound (bound : Nat) (d : Decoder α) : Decoder α := fun c =>
  match d { c with bound := min bound c.totalSize } with
  | .ok a c' => .ok a { c' with bound := c.bound }
  | .error e c' => .error e { c' with bound := c.bound }

/-- The answer of a decoder on a stream, and the events reported up to then. -/
def runOn (d : Decoder α) (s : Stream) : Except DecodeError α × List Event :=
  match Cursor.ofStream s with
  | .error e => (.error e, [])
  | .ok c =>
    match d c with
    | .ok a c => (.ok a, c.log.toList)
    | .error e c => (.error e, c.log.toList)

end Decoder
end WasmBinary
