/-! Seekable streams of bytes: what a call of `read` may answer, and what repeated calls bring. -/
namespace WasmBinary

/-- How a stream answers once it has no more bytes to deliver. -/
inductive Stop where
  | endOfInput
  | failure (reason : String)
  deriving DecidableEq, Repr

/-- A stream that is about to be read from `position` on. -/
structure Stream where
  /-- The bytes from the position on. -/
  ahead : List UInt8
  position : Nat
  /-- Where a seek to the end lands. -/
  claimedEnd : Nat
  /-- A place from which on no byte is delivered, and what is answered there instead. -/
  fault : Option (Nat × Stop) := none
  /-- Each entry interrupts one call of `read`, the first one at its place or after it. -/
  interruptions : List Nat := []
  /-- The most bytes that a call at a given place delivers; one is always possible. -/
  burst : Nat → Nat := fun _ => ahead.length
  /-- The number of the seek call that fails, counted from one. -/
  failingSeek : Option Nat := none

inductive Delivery where
  | bytes (bs : List UInt8)
  | interrupted
  | stopped (why : Stop)
  deriving DecidableEq, Repr

namespace Stream

/-- A stream over `bytes` that keeps its word. The position may lie past the end. -/
def ofBytes (bytes : List UInt8) (position : Nat) : Stream :=
  { ahead := bytes.drop position, position := position, claimedEnd := bytes.length }

/-- The interruptions that remain after the one that is due now, if one is. -/
def interrupted? (s : Stream) : Option (List Nat) :=
  match s.interruptions with
  | [] => none
  | i :: is => if i ≤ s.position then some is else none

def stopped? (s : Stream) : Option Stop :=
  match s.fault with
  | none => none
  | some (f, why) => if f ≤ s.position then some why else none

/-- The most bytes that one call delivers if `n` are asked for: no call reads across a place where
the stream is interrupted or stops. -/
def reach (s : Stream) (n : Nat) : Nat :=
  let upTo (place : Option Nat) := place.elim n (· - s.position)
  min (min n (max 1 (s.burst s.position)))
    (min (upTo s.interruptions.head?) (upTo (s.fault.map (·.1))))

/-- One call of `read` for `n` bytes. -/
def read (n : Nat) (s : Stream) : Delivery × Stream :=
  match s.interrupted? with
  | some is => (.interrupted, { s with interruptions := is })
  | none =>
    match s.stopped? with
    | some why => (.stopped why, s)
    | none =>
      match s.ahead.splitAt (s.reach n) with
      | ([], _) => (.stopped .endOfInput, s)
      | (bs, rest) => (.bytes bs, { s with ahead := rest, position := s.position + bs.length })

/-- What is left for `read` to answer before the stream stops for good. -/
def outstanding (s : Stream) : Nat :=
  s.ahead.length + s.interruptions.length

theorem outstanding_read_lt {n : Nat} {s t : Stream} {d : Delivery} (h : s.read n = (d, t))
    (hd : ∀ why, d ≠ .stopped why) : t.outstanding < s.outstanding := by
  unfold read at h
  split at h
  · next is hi =>
    obtain ⟨rfl, rfl⟩ := Prod.mk.inj h
    unfold interrupted? at hi
    split at hi <;> simp_all [outstanding]
  · split at h
    · next why _ => exact absurd (Prod.mk.inj h).1.symm (hd why)
    · split at h
      · exact absurd (Prod.mk.inj h).1.symm (hd _)
      · next bs rest hne hb =>
        obtain ⟨rfl, rfl⟩ := Prod.mk.inj h
        rw [List.splitAt_eq] at hb
        obtain ⟨rfl, rfl⟩ := Prod.mk.inj hb
        have hpos : (s.ahead.take (s.reach n)).length ≠ 0 :=
          fun h0 => hne (List.eq_nil_of_length_eq_zero h0)
        simp only [List.length_take] at hpos
        simp only [outstanding, List.length_drop]
        omega

/-- The bytes that calls for `n` bytes each deliver, and how the stream stops after them. -/
def drain (n : Nat) (s : Stream) : List UInt8 × Stop :=
  match h : s.read n with
  | (.stopped why, _) => ([], why)
  | (.interrupted, t) =>
    have := outstanding_read_lt h (by simp)
    t.drain n
  | (.bytes bs, t) =>
    have := outstanding_read_lt h (by simp)
    let rest := t.drain n
    (bs ++ rest.1, rest.2)
termination_by s.outstanding

/-- All that the stream delivers, and how it stops then. A read of an exact length joins short
deliveries and repeats interrupted calls, so it sees nothing else. -/
def contents (s : Stream) : List UInt8 × Stop :=
  s.drain (s.ahead.length + 1)

/-- The number of bytes from the position to where the end seems to be. -/
def size (s : Stream) : Nat :=
  s.claimedEnd - s.position

end Stream
end WasmBinary
