import WasmBinary.Proofs.Comparison.Decoder
import WasmBinary.Proofs.Compositional

/-! The reads that a run makes. A run is derived by rules that follow the way decoders are put
together, and the rules for the primitive reads record a call with its answer. A decoder that can be
put together in two ways has two accounts of its runs, with different calls for the same bytes, so
what holds of the calls is stated for every account: what a run does to its stream is what its calls
do, one after the other. -/
namespace WasmBinary

open Decoder

structure Call where
  wanted : Nat
  /-- Whether the stream was asked. A call for more than it seems to hold is refused before. -/
  asked : Bool
  answer : Except DecodeError (List UInt8)

namespace Call

def bytes (call : Call) : List UInt8 :=
  call.answer.toOption.getD []

/-- Whether the stream was asked for more than it had. -/
def ranOff (call : Call) : Bool :=
  call.asked && !call.answer.isOk

end Call

namespace Decoder

variable {α β σ : Type}

/-- The cursor that a run leaves behind, failed or not. -/
def cursorOf : EStateM.Result DecodeError Cursor α → Cursor
  | .ok _ c => c
  | .error _ c => c

def answerOf : EStateM.Result DecodeError Cursor α → Except DecodeError α
  | .ok a _ => .ok a
  | .error e _ => .error e

def rebound (bound : Nat) :
    EStateM.Result DecodeError Cursor α → EStateM.Result DecodeError Cursor α
  | .ok a c => .ok a { c with bound := bound }
  | .error e c => .error e { c with bound := bound }

private theorem withBound_apply (bound : Nat) (d : Decoder α) (c : Cursor) :
    withBound bound d c = rebound c.bound (d { c with bound := min bound c.totalSize }) := by
  unfold withBound
  cases d { c with bound := min bound c.totalSize } <;> rfl

/-- From the cursor `c` the decoder `d` makes these calls, in this order, and ends with the result
`r`. No rule catches an error, and none but those for the reads may fail with an error of the
stream. -/
inductive Makes : {α : Type} → Decoder α → Cursor → List Call →
    EStateM.Result DecodeError Cursor α → Prop
  | pure {α : Type} (a : α) (c : Cursor) : Makes (pure a) c [] (.ok a c)
  | position (c : Cursor) : Makes position c [] (.ok c.position c)
  | report (event : Event) (c : Cursor) : Makes (report event) c [] (report event c)
  | fail {α : Type} {cause : Cause} (own : cause.isIo = false) (c : Cursor) :
    Makes (fail cause : Decoder α) c [] (fail cause c)
  | failAt {α : Type} (offset : Nat) {cause : Cause} (own : cause.isIo = false) (c : Cursor) :
    Makes (failAt offset cause : Decoder α) c [] (failAt offset cause c)
  | byte (c : Cursor) : Makes byte c [⟨1, true, ([·]) <$> answerOf (byte c)⟩] (byte c)
  | bytes (n : Nat) (c : Cursor) : Makes (bytes n) c [⟨n, true, answerOf (bytes n c)⟩] (bytes n c)
  | read (n : Nat) (c : Cursor) :
    Makes (read n) c [⟨n, n ≤ c.remaining, answerOf (read n c)⟩] (read n c)
  | bind {α β : Type} {d : Decoder α} {f : α → Decoder β} {c m : Cursor} {a : α}
    {calls calls' : List Call} {r : EStateM.Result DecodeError Cursor β}
    (first : Makes d c calls (.ok a m)) (rest : Makes (f a) m calls' r) :
    Makes (d >>= f) c (calls ++ calls') r
  | bindError {α β : Type} {d : Decoder α} {f : α → Decoder β} {c m : Cursor} {e : DecodeError}
    {calls : List Call} (first : Makes d c calls (.error e m)) :
    Makes (d >>= f) c calls (.error e m)
  | next (width start : Nat) {c : Cursor} {calls : List Call}
    {r : EStateM.Result DecodeError Cursor UInt8} (first : Makes byte c calls r) :
    Makes (Leb128.next width start) c calls (mapError (Leb128.cutOff width start) r)
  | inSection {α : Type} (id : SectionId) {d : Decoder α} {c : Cursor} {calls : List Call}
    {r : EStateM.Result DecodeError Cursor α} (inner : Makes d c calls r) :
    Makes (inSection id d) c calls (mapError (·.inSection id) r)
  | withBound {α : Type} (bound : Nat) {d : Decoder α} {c : Cursor} {calls : List Call}
    {r : EStateM.Result DecodeError Cursor α}
    (inner : Makes d { c with bound := min bound c.totalSize } calls r) :
    Makes (withBound bound d) c calls (rebound c.bound r)
  | done {α : Type} {more : Cursor → Bool} {d : Decoder α} {hd : Advances d} {c : Cursor}
    (stop : more c = false) : Makes (collectWhile more d hd) c [] (.ok [] c)
  | again {α : Type} {more : Cursor → Bool} {d : Decoder α} {hd : Advances d} {c : Cursor}
    {calls : List Call} {r : EStateM.Result DecodeError Cursor (List α)} (go : more c = true)
    (step : Makes (d >>= fun a => (a :: ·) <$> collectWhile more d hd) c calls r) :
    Makes (collectWhile more d hd) c calls r

variable {d : Decoder α} {c : Cursor} {calls : List Call}
  {r : EStateM.Result DecodeError Cursor α}

/-- The result that the rules give is the one that the decoder computes. -/
theorem Makes.eq (h : Makes d c calls r) : d c = r := by
  induction h with
  | pure | position | report | fail | failAt | byte | bytes | read => rfl
  | bind _ _ ih ih' =>
    rw [bind_apply, ih]
    exact ih'
  | bindError _ ih => rw [bind_apply, ih]
  | next width start _ ih => rw [Leb128.next_apply, ih]
  | inSection id _ ih => rw [inSection_apply, ih]
  | withBound bound _ ih => rw [withBound_apply, ih]
  | done stop =>
    rw [collectWhile_eq, stop]
    rfl
  | again go _ ih =>
    rw [collectWhile_eq, if_pos go]
    exact ih

end Decoder

/-- Where a cursor stands in its stream. Its bound and its log have no part in this. -/
structure Place where
  pending : List UInt8
  stop : Stop
  position : Nat
  totalSize : Nat

def Cursor.place (c : Cursor) : Place :=
  ⟨c.pending, c.stop, c.position, c.totalSize⟩

/-- What a call does: it takes the bytes that it answers with, or it leaves the stream where that
stops, or it is refused and leaves all as it is. -/
inductive Call.Moves : Call → Place → Place → Prop
  | delivered (bs rest : List UInt8) (stop : Stop) (position totalSize : Nat) :
    Moves ⟨bs.length, true, .ok bs⟩ ⟨bs ++ rest, stop, position, totalSize⟩
      ⟨rest, stop, position + bs.length, totalSize⟩
  | ranOff {p : Place} {n : Nat} (short : p.pending.length < n) :
    Moves ⟨n, true, .error ⟨p.stop.cause n, p.position, none⟩⟩ p { p with pending := [] }
  | refused {p : Place} {n : Nat} (long : p.totalSize - p.position < n) :
    Moves ⟨n, false, .error ⟨.unexpectedEnd n, p.position, none⟩⟩ p p

namespace Call.Moves

variable {p q : Place} {call : Call}

theorem position_of_error {e : DecodeError} (h : call.Moves p q) (he : call.answer = .error e) :
    q.position = p.position := by
  cases h with
  | delivered => cases he
  | ranOff => rfl
  | refused => rfl

private theorem pending_of_ranOff (h : call.Moves p q) (hoff : call.ranOff = true) :
    q.pending = [] := by
  cases h with
  | delivered => cases hoff
  | ranOff => rfl
  | refused => cases hoff

end Call.Moves

/-- Calls one after the other, each from where the one before it left the stream. -/
inductive Path : Place → List Call → Place → Prop
  | nil (p : Place) : Path p [] p
  | cons {p q r : Place} {call : Call} {calls : List Call} (head : call.Moves p q)
    (tail : Path q calls r) : Path p (call :: calls) r

namespace Path

variable {p q r : Place} {call : Call} {calls calls' : List Call}

theorem single (h : call.Moves p q) : Path p [call] q :=
  .cons h (.nil q)

theorem append (h : Path p calls q) (h' : Path q calls' r) : Path p (calls ++ calls') r := by
  induction h with
  | nil p => exact h'
  | cons head _ ih => exact .cons head (ih h')

theorem exists_of_append (h : Path p (calls ++ calls') r) :
    ∃ q, Path p calls q ∧ Path q calls' r := by
  induction calls generalizing p with
  | nil => exact ⟨p, .nil p, h⟩
  | cons call calls ih =>
    cases h with
    | cons head tail =>
      obtain ⟨q, hfirst, hrest⟩ := ih tail
      exact ⟨q, .cons head hfirst, hrest⟩

theorem stop_eq (h : Path p calls q) : q.stop = p.stop := by
  induction h with
  | nil p => rfl
  | cons head _ ih =>
    rw [ih]
    cases head <;> rfl

theorem totalSize_eq (h : Path p calls q) : q.totalSize = p.totalSize := by
  induction h with
  | nil p => rfl
  | cons head _ ih =>
    rw [ih]
    cases head <;> rfl

/-- The bytes that the calls brought are those that were to come, and the position has advanced by
as many. What is still to come follows them, unless a call has run off the stream. -/
theorem pending_eq (h : Path p calls q) :
    ∃ rest, p.pending = calls.flatMap Call.bytes ++ rest ∧
      q.position = p.position + (calls.flatMap Call.bytes).length ∧
      (q.pending = rest ∨ q.pending = []) := by
  induction h with
  | nil p => exact ⟨p.pending, rfl, rfl, .inl rfl⟩
  | @cons p _ _ _ _ head _ ih =>
    obtain ⟨rest, hpending, hposition, hrest⟩ := ih
    rw [List.flatMap_cons]
    cases head with
    | delivered bs rest' stop position totalSize =>
      refine ⟨rest, ?_, ?_, hrest⟩
      · change bs ++ rest' = bs ++ _ ++ rest
        rw [List.append_assoc, ← hpending]
      · change _ = position + (bs ++ _).length
        rw [hposition, List.length_append, ← Nat.add_assoc]
    | ranOff short =>
      -- Nothing is left in the stream, so the later calls have brought nothing either.
      obtain ⟨hnone, hrest'⟩ := List.append_eq_nil_iff.1 hpending.symm
      refine ⟨p.pending, ?_, ?_, .inr ?_⟩
      · rw [hnone]
        rfl
      · rw [hposition, hnone]
        rfl
      · rcases hrest with h | h
        · rw [h, hrest']
        · exact h
    | refused long => exact ⟨rest, hpending, hposition, hrest⟩

theorem of_pending_eq_nil (h : Path p calls q) (hp : p.pending = [])
    (hstop : p.stop = .endOfInput) : q = p ∧ ∀ call ∈ calls, 0 < call.wanted →
      call.answer = .error ⟨.unexpectedEnd call.wanted, p.position, none⟩ := by
  induction h with
  | nil p => exact ⟨rfl, by simp⟩
  | @cons p q r call calls head _ ih =>
    have hsame : q = p ∧ (0 < call.wanted →
        call.answer = .error ⟨.unexpectedEnd call.wanted, p.position, none⟩) := by
      cases head with
      | delivered bs rest stop position totalSize =>
        obtain ⟨rfl, rfl⟩ := List.append_eq_nil_iff.1 hp
        exact ⟨rfl, fun hpos => absurd hpos (Nat.lt_irrefl 0)⟩
      | ranOff short =>
        refine ⟨?_, fun _ => by rw [hstop]; rfl⟩
        rw [← hp]
      | refused long => exact ⟨rfl, fun _ => rfl⟩
    obtain ⟨rfl, hcall⟩ := hsame
    obtain ⟨hq, hcalls⟩ := ih hp hstop
    exact ⟨hq, List.forall_mem_cons.2 ⟨hcall, hcalls⟩⟩

theorem answer_of_ranOff {before later : List Call} (h : Path p (before ++ call :: later) q)
    (hstop : p.stop = .endOfInput) (hoff : call.ranOff = true) :
    ∀ call' ∈ later, 0 < call'.wanted →
      call'.answer = .error ⟨.unexpectedEnd call'.wanted, q.position, none⟩ := by
  obtain ⟨m, hbefore, hrest⟩ := h.exists_of_append
  cases hrest with
  | @cons _ m' _ _ _ head tail =>
    have hstop' : m'.stop = .endOfInput := by
      rw [(single head).stop_eq, hbefore.stop_eq, hstop]
    obtain ⟨hq, hlater⟩ := tail.of_pending_eq_nil (head.pending_of_ranOff hoff) hstop'
    rw [hq]
    exact hlater

end Path

namespace Decoder

variable {α β σ : Type} {d : Decoder α} {c : Cursor} {calls : List Call}
  {r : EStateM.Result DecodeError Cursor α}

theorem moves_bytes (n : Nat) (c : Cursor) :
    Call.Moves ⟨n, true, answerOf (bytes n c)⟩ c.place (cursorOf (bytes n c)).place := by
  rcases bytes_cases n c with ⟨bs, rest, hp, rfl, hok⟩ | ⟨hshort, herror⟩
  · have hplace : c.place = ⟨bs ++ rest, c.stop, c.position, c.totalSize⟩ := by
      rw [Cursor.place, hp]
    rw [hok, hplace]
    exact .delivered bs rest c.stop c.position c.totalSize
  · rw [herror]
    exact .ranOff (p := c.place) hshort

theorem moves_byte (c : Cursor) :
    Call.Moves ⟨1, true, ([·]) <$> answerOf (byte c)⟩ c.place (cursorOf (byte c)).place := by
  unfold byte
  cases hp : c.pending with
  | nil =>
    have hshort : c.place.pending.length < 1 := by simp [Cursor.place, hp]
    have hplace : c.place = { c.place with pending := [] } := by rw [Cursor.place, hp]
    have hmoves := Call.Moves.ranOff hshort
    rw [← hplace] at hmoves
    exact hmoves
  | cons b rest =>
    have hplace : c.place = ⟨[b] ++ rest, c.stop, c.position, c.totalSize⟩ := by
      rw [Cursor.place, hp]
      rfl
    rw [hplace]
    exact .delivered [b] rest c.stop c.position c.totalSize

theorem moves_read (n : Nat) (c : Cursor) :
    Call.Moves ⟨n, n ≤ c.remaining, answerOf (read n c)⟩ c.place (cursorOf (read n c)).place := by
  unfold read
  split
  · next hlong =>
    rw [decide_eq_false (Nat.not_le_of_lt hlong)]
    exact .refused (p := c.place) hlong
  · next hfits =>
    rw [decide_eq_true (Nat.le_of_not_lt hfits)]
    exact moves_bytes n c

/-- A run moves along its stream as its calls do, also if it fails. -/
theorem Makes.path (h : Makes d c calls r) : Path c.place calls (cursorOf r).place := by
  induction h with
  | pure | position | report | fail | failAt | done => exact .nil _
  | byte c => exact .single (moves_byte c)
  | bytes n c => exact .single (moves_bytes n c)
  | read n c => exact .single (moves_read n c)
  | bind _ _ ih ih' => exact ih.append ih'
  | bindError _ ih => exact ih
  | @next _ _ _ _ r _ ih => cases r <;> exact ih
  | @inSection _ _ _ _ _ r _ ih => cases r <;> exact ih
  | @withBound _ _ _ _ _ r _ ih => cases r <;> exact ih
  | again _ _ ih => exact ih

private theorem bound_bytes (n : Nat) (c : Cursor) : (cursorOf (bytes n c)).bound = c.bound := by
  rcases bytes_cases n c with ⟨bs, rest, -, -, hok⟩ | ⟨-, herror⟩
  · rw [hok]
    rfl
  · rw [herror]
    rfl

theorem Makes.bound_eq (h : Makes d c calls r) : (cursorOf r).bound = c.bound := by
  induction h with
  | pure | position | report | fail | failAt | done => rfl
  | byte c =>
    unfold Decoder.byte
    split <;> rfl
  | bytes n c => exact bound_bytes n c
  | read n c =>
    unfold Decoder.read
    split
    · rfl
    · exact bound_bytes n c
  | bind _ _ ih ih' => exact ih'.trans ih
  | bindError _ ih => exact ih
  | @next _ _ _ _ r _ ih => cases r <;> exact ih
  | @inSection _ _ _ _ _ r _ ih => cases r <;> exact ih
  | @withBound _ _ _ _ _ r _ ih => cases r <;> rfl
  | again _ _ ih => exact ih

theorem Makes.offset_of_isIo {e : DecodeError} {c' : Cursor} (h : Makes d c calls r)
    (hr : r = .error e c') (he : e.cause.isIo = true) : e.offset = c'.position := by
  induction h generalizing e c' with
  | pure | position | report | done => cases hr
  | fail own c =>
    obtain ⟨rfl, -⟩ := EStateM.Result.error.inj hr
    exact absurd he (Bool.eq_false_iff.1 own)
  | failAt offset own c =>
    obtain ⟨rfl, -⟩ := EStateM.Result.error.inj hr
    exact absurd he (Bool.eq_false_iff.1 own)
  | byte c =>
    unfold Decoder.byte at hr
    split at hr
    · obtain ⟨rfl, rfl⟩ := EStateM.Result.error.inj hr
      rfl
    · cases hr
  | bytes n c =>
    obtain ⟨rfl, rfl, -⟩ := bytes_eq_error hr
    rfl
  | read n c =>
    unfold Decoder.read at hr
    split at hr
    · obtain ⟨rfl, -⟩ := EStateM.Result.error.inj hr
      cases he
    · obtain ⟨rfl, rfl, -⟩ := bytes_eq_error hr
      rfl
  | bind _ _ _ ih' => exact ih' hr he
  | bindError _ ih =>
    obtain ⟨rfl, rfl⟩ := EStateM.Result.error.inj hr
    exact ih rfl he
  | @next width start _ _ r _ ih =>
    cases r with
    | ok a m => cases hr
    | error e₀ m =>
      obtain ⟨rfl, rfl⟩ := EStateM.Result.error.inj hr
      unfold Leb128.cutOff at he ⊢
      split at he
      · cases he
      · exact ih rfl he
  | @inSection _ id _ _ _ r _ ih =>
    cases r with
    | ok a m => cases hr
    | error e₀ m =>
      obtain ⟨rfl, rfl⟩ := EStateM.Result.error.inj hr
      have hoffset : e₀.offset = m.position := ih rfl he
      exact hoffset
  | @withBound _ _ _ _ _ r _ ih =>
    cases r with
    | ok a m => cases hr
    | error e₀ m =>
      obtain ⟨rfl, rfl⟩ := EStateM.Result.error.inj hr
      have hoffset : e₀.offset = m.position := ih rfl he
      exact hoffset
  | again _ _ ih => exact ih hr he

/-- There is an account of what the decoder does from this cursor. -/
def TracedAt (d : Decoder α) (c : Cursor) : Prop :=
  ∃ calls r, Makes d c calls r

def Traced (d : Decoder α) : Prop :=
  ∀ c, TracedAt d c

private theorem tracedAt_bind {f : α → Decoder β} (hd : TracedAt d c)
    (hf : ∀ a m, d c = .ok a m → TracedAt (f a) m) : TracedAt (d >>= f) c := by
  obtain ⟨calls, r, h⟩ := hd
  cases r with
  | ok a m =>
    obtain ⟨calls', r', h'⟩ := hf a m h.eq
    exact ⟨calls ++ calls', r', .bind h h'⟩
  | error e m => exact ⟨calls, _, .bindError h⟩

theorem tracing : Compositional TracedAt where
  pure a c := ⟨[], _, .pure a c⟩
  position c := ⟨[], _, .position c⟩
  fail own c := ⟨[], _, .fail own c⟩
  failAt offset _ own c := ⟨[], _, .failAt offset own c⟩
  byte c := ⟨_, _, .byte c⟩
  bytes n c := ⟨_, _, .bytes n c⟩
  read n c := ⟨_, _, .read n c⟩
  next width start c := ⟨_, _, .next width start (.byte c)⟩
  bindAt := tracedAt_bind
  done stop := ⟨[], _, .done stop⟩
  again go step := by
    obtain ⟨calls, r, h⟩ := step
    exact ⟨calls, r, .again go h⟩

theorem traced_report (event : Event) : Traced (report event) :=
  fun c => ⟨[], _, .report event c⟩

theorem Traced.inSection (hd : Traced d) (id : SectionId) : Traced (inSection id d) := by
  intro c
  obtain ⟨calls, r, h⟩ := hd c
  exact ⟨calls, _, .inSection id h⟩

theorem Traced.withBound (hd : Traced d) (bound : Nat) : Traced (withBound bound d) := by
  intro c
  obtain ⟨calls, r, h⟩ := hd { c with bound := min bound c.totalSize }
  exact ⟨calls, _, .withBound bound h⟩

end Decoder
end WasmBinary
