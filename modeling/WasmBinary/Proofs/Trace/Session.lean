import WasmBinary.Proofs.Trace.Decoder
import WasmBinary.Session

/-! Sessions over bytes in memory, of any length and with any failures in between: the cursor never
goes back, never leaves the input and never skips a byte. -/
namespace WasmBinary

open Decoder

namespace Request

/-- The decoder that answers a request, unless the request is about marks. -/
def decoder? : Request → Option (Decoder Answer)
  | .byte => some (.byte <$> Decoder.byte)
  | .read count => some (.bytes <$> Decoder.read count)
  | .bytes count => some (.bytes <$> Decoder.bytes count)
  | .u32 => some (.u32 <$> Leb128.u32)
  | .i32 => some (.i32 <$> Leb128.i32)
  | .u64 => some (.u64 <$> Leb128.u64)
  | .s33 => some (.s33 <$> Leb128.s33)
  | .i64 => some (.i64 <$> Leb128.i64)
  | .name => some (.name <$> Decoder.name)
  | .instruction => some (.instruction <$> Instruction.decode)
  | .expr => some (.expr <$> Expr.decode)
  | .body declared => some (.body <$> Body.decode declared)
  | .list kind => some (.list <$> Decoder.vector kind.decoder)
  | .entry => some (.entry <$> SectionEntry.decode)
  | .payload id => some (.payload <$> Section.decodePayload id)
  | .mark | .since _ => none

def isRead : Request → Bool
  | .byte | .read _ | .bytes _ => true
  | _ => false

end Request

theorem ItemKind.traced_decoder (kind : ItemKind) : Traced kind.decoder := by
  cases kind with
  | byte => exact tracing.map tracing.byte _
  | u32 => exact tracing.map tracing.u32 _
  | i32 => exact tracing.map tracing.i32 _
  | name => exact tracing.map tracing.name _
  | instruction => exact tracing.map tracing.instruction _
  | bytes => exact tracing.map (tracing.vector tracing.byte) _

theorem Request.traced {r : Request} {d : Decoder Answer} (h : r.decoder? = some d) : Traced d := by
  cases r with
  | byte => exact Option.some.inj h ▸ tracing.map tracing.byte _
  | read count => exact Option.some.inj h ▸ tracing.map (tracing.read count) _
  | bytes count => exact Option.some.inj h ▸ tracing.map (tracing.bytes count) _
  | u32 => exact Option.some.inj h ▸ tracing.map tracing.u32 _
  | i32 => exact Option.some.inj h ▸ tracing.map tracing.i32 _
  | u64 => exact Option.some.inj h ▸ tracing.map (tracing.map (tracing.unsigned 64) _) _
  | s33 => exact Option.some.inj h ▸ tracing.map (tracing.signed 33) _
  | i64 => exact Option.some.inj h ▸ tracing.map tracing.i64 _
  | name => exact Option.some.inj h ▸ tracing.map tracing.name _
  | instruction => exact Option.some.inj h ▸ tracing.map tracing.instruction _
  | expr => exact Option.some.inj h ▸ tracing.map tracing.expr _
  | body declared => exact Option.some.inj h ▸ tracing.map (tracing.body declared) _
  | list kind => exact Option.some.inj h ▸ tracing.map (tracing.vector kind.traced_decoder) _
  | entry => exact Option.some.inj h ▸ tracing.map traced_entry _
  | payload id => exact Option.some.inj h ▸ tracing.map (traced_payload id) _
  | mark => simp [decoder?] at h
  | since i => simp [decoder?] at h

/-- A request, or a list of items of any kind that reads as decoders do. -/
inductive Step where
  | request (r : Request)
  | list (item : Decoder Answer) (traced : Traced item)

namespace Step

def decoder? : Step → Option (Decoder Answer)
  | .request r => r.decoder?
  | .list item _ => some (.list <$> vector item)

theorem traced {step : Step} {d : Decoder Answer} (h : step.decoder? = some d) : Traced d := by
  cases step with
  | request r => exact r.traced h
  | list item traced => exact Option.some.inj h ▸ tracing.map (tracing.vector traced) _

end Step

namespace Session

def ofBytes (bs : List UInt8) : Session :=
  ⟨.ofBytes bs, []⟩

def perform (s : Session) : Step → Except DecodeError Answer × Session
  | .request r => s.answer r
  | .list item _ => s.decode (.list <$> vector item)

/-- The session after some steps, whether they succeed or not. -/
def after (s : Session) : List Step → Session
  | [] => s
  | step :: steps => (s.perform step).2.after steps

theorem ofStream_ofBytes_eq (bs : List UInt8) : ofStream (.ofBytes bs 0) = .ok (ofBytes bs) := by
  rw [ofStream, Cursor.ofStream_ofBytes]
  rfl

theorem run_eq_after (s : Session) (rs : List Request) :
    (s.run rs).2 = s.after (rs.map .request) := by
  induction rs generalizing s with
  | nil => rfl
  | cons r rs ih => exact ih (s.answer r).2

inductive Makes : Session → List Step → List Call → Prop
  | nil (s : Session) : Makes s [] []
  | decode {s : Session} {step : Step} {steps : List Step} {d : Decoder Answer}
    {calls calls' : List Call} {r : EStateM.Result DecodeError Cursor Answer}
    (decoder : step.decoder? = some d) (head : d.Makes s.cursor calls r)
    (tail : Makes (s.perform step).2 steps calls') : Makes s (step :: steps) (calls ++ calls')
  | mark {s : Session} {step : Step} {steps : List Step} {calls : List Call}
    (decoder : step.decoder? = none) (tail : Makes (s.perform step).2 steps calls) :
    Makes s (step :: steps) calls

variable {s : Session} {step : Step} {steps : List Step} {calls : List Call}

theorem decode_eq (s : Session) (d : Decoder Answer) :
    s.decode d = (answerOf (d s.cursor), { s with cursor := cursorOf (d s.cursor) }) := by
  unfold decode
  cases d s.cursor <;> rfl

theorem perform_of_decoder? {d : Decoder Answer} (h : step.decoder? = some d) :
    s.perform step = s.decode d := by
  cases step with
  | request r =>
    cases r with
    | mark => simp [Step.decoder?, Request.decoder?] at h
    | since i => simp [Step.decoder?, Request.decoder?] at h
    | _ =>
      rw [← Option.some.inj h]
      rfl
  | list item traced =>
    rw [← Option.some.inj h]
    rfl

private theorem cursor_perform {d : Decoder Answer} {r : EStateM.Result DecodeError Cursor Answer}
    (h : step.decoder? = some d) (hd : d.Makes s.cursor calls r) :
    (s.perform step).2.cursor = cursorOf r := by
  rw [perform_of_decoder? h, decode_eq, hd.eq]

theorem cursor_perform_of_decoder?_eq_none (h : step.decoder? = none) :
    (s.perform step).2.cursor = s.cursor := by
  cases step with
  | request r =>
    cases r with
    | mark => rfl
    | since i => rfl
    | _ => simp [Step.decoder?, Request.decoder?] at h
  | list item traced => simp [Step.decoder?] at h

private theorem marks_perform (s : Session) (step : Step) :
    ∃ new, (s.perform step).2.marks = s.marks ++ new := by
  cases h : step.decoder? with
  | some d =>
    refine ⟨[], ?_⟩
    rw [perform_of_decoder? h, decode_eq, List.append_nil]
  | none =>
    cases step with
    | request r =>
      cases r with
      | mark => exact ⟨[s.cursor.position], rfl⟩
      | since i => exact ⟨[], (List.append_nil _).symm⟩
      | _ => simp [Step.decoder?, Request.decoder?] at h
    | list item traced => simp [Step.decoder?] at h

theorem exists_makes (s : Session) (steps : List Step) : ∃ calls, Makes s steps calls := by
  induction steps generalizing s with
  | nil => exact ⟨[], .nil s⟩
  | cons step steps ih =>
    obtain ⟨calls', tail⟩ := ih (s.perform step).2
    cases h : step.decoder? with
    | none => exact ⟨calls', .mark h tail⟩
    | some d =>
      obtain ⟨calls, r, head⟩ := Step.traced h s.cursor
      exact ⟨calls ++ calls', .decode h head tail⟩

theorem Makes.path (h : Makes s steps calls) :
    Path s.cursor.place calls (s.after steps).cursor.place := by
  induction h with
  | nil s => exact .nil _
  | decode decoder head _ ih =>
    rw [cursor_perform decoder head] at ih
    exact head.path.append ih
  | mark decoder _ ih =>
    rw [cursor_perform_of_decoder?_eq_none decoder] at ih
    exact ih

theorem Makes.bound_eq (h : Makes s steps calls) :
    (s.after steps).cursor.bound = s.cursor.bound := by
  induction h with
  | nil s => rfl
  | decode decoder head _ ih =>
    rw [cursor_perform decoder head, head.bound_eq] at ih
    exact ih
  | mark decoder _ ih =>
    rw [cursor_perform_of_decoder?_eq_none decoder] at ih
    exact ih

theorem after_append (s : Session) (before later : List Step) :
    s.after (before ++ later) = (s.after before).after later := by
  induction before generalizing s with
  | nil => rfl
  | cons step before ih => exact ih (s.perform step).2

theorem position_le_after (s : Session) (steps : List Step) :
    s.cursor.position ≤ (s.after steps).cursor.position := by
  obtain ⟨calls, h⟩ := exists_makes s steps
  obtain ⟨rest, -, hposition, -⟩ := h.path.pending_eq
  exact Nat.le.intro hposition.symm

theorem marks_after (s : Session) (steps : List Step) :
    ∃ new, (s.after steps).marks = s.marks ++ new := by
  induction steps generalizing s with
  | nil => exact ⟨[], (List.append_nil _).symm⟩
  | cons step steps ih =>
    obtain ⟨first, hfirst⟩ := marks_perform s step
    obtain ⟨new, hnew⟩ := ih (s.perform step).2
    refine ⟨first ++ new, ?_⟩
    rw [after, hnew, hfirst, List.append_assoc]

theorem since_after_mark (s : Session) (later : List Step) :
    ∃ n, (((s.answer .mark).2.after later).answer (.since s.marks.length)).1 =
        .ok (.consumed (some n)) ∧
      s.cursor.position + n = ((s.answer .mark).2.after later).cursor.position := by
  obtain ⟨new, hnew⟩ := marks_after (s.answer .mark).2 later
  have hle : s.cursor.position ≤ ((s.answer .mark).2.after later).cursor.position :=
    position_le_after (s.answer .mark).2 later
  have hmark : ((s.answer .mark).2.after later).marks[s.marks.length]? =
      some s.cursor.position := by
    rw [hnew]
    simp [answer]
  refine ⟨((s.answer .mark).2.after later).cursor.position - s.cursor.position, ?_, ?_⟩
  · rw [answer.eq_def]
    dsimp only
    rw [hmark]
    rfl
  · exact Nat.add_sub_cancel' hle

private theorem position_decode_of_error {α : Type} {d : Decoder α} {f : α → Answer} {call : Call}
    {e : DecodeError} (hmoves : call.Moves s.cursor.place (cursorOf (d s.cursor)).place)
    (hcall : ∀ e, answerOf (d s.cursor) = .error e → call.answer = .error e)
    (h : (s.decode (f <$> d)).1 = .error e) :
    (s.decode (f <$> d)).2.cursor.position = s.cursor.position := by
  rw [decode_eq, map_apply] at h ⊢
  cases hd : d s.cursor with
  | ok a c => simp [hd, answerOf] at h
  | error e' c =>
    rw [hd] at hmoves hcall
    exact hmoves.position_of_error (hcall e' rfl)

theorem position_of_failed_read {r : Request} {e : DecodeError} (hr : r.isRead = true)
    (h : (s.answer r).1 = .error e) : (s.answer r).2.cursor.position = s.cursor.position := by
  cases r with
  | byte =>
    refine position_decode_of_error (moves_byte s.cursor) (fun e he => ?_) h
    dsimp only
    rw [he]
    rfl
  | read count => exact position_decode_of_error (moves_read count s.cursor) (fun _ he => he) h
  | bytes count => exact position_decode_of_error (moves_bytes count s.cursor) (fun _ he => he) h
  | _ => cases hr

/-- How a session over `bs` stands after some calls. -/
structure InOrder (bs : List UInt8) (calls : List Call) (s : Session) : Prop where
  totalSize : s.cursor.totalSize = bs.length
  bound : s.cursor.bound = bs.length
  position : s.cursor.position ≤ bs.length
  /-- The bytes brought by the calls, in their order, are those before the position. -/
  taken : calls.flatMap Call.bytes = bs.take s.cursor.position
  /-- After a call that has run off the stream, all that want a byte or more fail at its end. -/
  spent : ∀ before call later, calls = before ++ call :: later → call.ranOff = true →
    ∀ call' ∈ later, 0 < call'.wanted →
      call'.answer = .error ⟨.unexpectedEnd call'.wanted, s.cursor.position, none⟩

theorem inOrder_of_path {bs : List UInt8} (hbound : s.cursor.bound = bs.length)
    (h : Path (Cursor.ofBytes bs).place calls s.cursor.place) : s.InOrder bs calls := by
  obtain ⟨rest, hbytes, hposition, -⟩ := h.pending_eq
  change bs = calls.flatMap Call.bytes ++ rest at hbytes
  change s.cursor.position = 0 + _ at hposition
  rw [Nat.zero_add] at hposition
  refine ⟨h.totalSize_eq, hbound, ?_, ?_, ?_⟩
  · rw [hposition, hbytes, List.length_append]
    exact Nat.le_add_right _ _
  · rw [hposition, hbytes, List.take_left]
  · intro before call later hcalls hoff
    rw [hcalls] at h
    exact h.answer_of_ranOff rfl hoff

def reached (bs : List UInt8) (steps : List Step) : Session :=
  (ofBytes bs).after steps

/-- A session over bytes in memory, after any steps, of which any may have failed. The reads that it
has made brought the bytes before its position, in order, and once the stream was run off they
bring none; the position never goes back and is the same after a failed read; and what is measured
from a mark is the way from there. -/
theorem inOrder_reached (bs : List UInt8) (steps : List Step) :
    ofStream (.ofBytes bs 0) = .ok (ofBytes bs) ∧
    (∀ rs, steps = rs.map .request → ((ofBytes bs).run rs).2 = reached bs steps) ∧
    (∃ calls, Makes (ofBytes bs) steps calls) ∧
    (∀ calls, Makes (ofBytes bs) steps calls → (reached bs steps).InOrder bs calls) ∧
    (∀ before later, steps = before ++ later →
      (reached bs before).cursor.position ≤ (reached bs steps).cursor.position) ∧
    (∀ r e, r.isRead = true → ((reached bs steps).answer r).1 = .error e →
      ((reached bs steps).answer r).2.cursor.position = (reached bs steps).cursor.position) ∧
    (∀ before later, steps = before ++ .request .mark :: later →
      ((reached bs before).answer .mark).1 = .ok (.offset (reached bs before).cursor.position) ∧
      ∃ n, ((reached bs steps).answer (.since (reached bs before).marks.length)).1 =
          .ok (.consumed (some n)) ∧
        (reached bs before).cursor.position + n = (reached bs steps).cursor.position) := by
  refine ⟨ofStream_ofBytes_eq bs, ?_, exists_makes _ steps, ?_, ?_, ?_, ?_⟩
  · intro rs hsteps
    rw [reached, hsteps, run_eq_after]
  · intro calls h
    exact inOrder_of_path h.bound_eq h.path
  · intro before later hsteps
    rw [reached, reached, hsteps, after_append]
    exact position_le_after _ later
  · intro r e hr h
    exact position_of_failed_read hr h
  · intro before later hsteps
    have heq : reached bs steps = ((reached bs before).answer .mark).2.after later := by
      rw [reached, hsteps, after_append]
      rfl
    rw [heq]
    exact ⟨rfl, since_after_mark (reached bs before) later⟩

end Session
end WasmBinary
