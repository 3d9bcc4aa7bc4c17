import WasmBinary.Proofs.Trace.Basic

/-! Reads of an exact length, and how a stream answers the calls that a run makes. The run sees only
the supply of the stream, and each call gets from it what an exact read of the stream would bring. -/
namespace WasmBinary

namespace Stream

/-- Reads exactly `n` bytes, if the stream has so many: short deliveries are joined, and interrupted
calls are repeated. -/
def readExact (n : Nat) (s : Stream) : Except Stop (List UInt8) × Stream :=
  if n = 0 then (.ok [], s)
  else
    match h : s.read n with
    | (.stopped why, t) => (.error why, t)
    | (.interrupted, t) =>
      have := outstanding_read_lt h (by simp)
      t.readExact n
    | (.bytes bs, t) =>
      have := outstanding_read_lt h (by simp)
      let rest := t.readExact (n - bs.length)
      ((bs ++ ·) <$> rest.1, rest.2)
termination_by s.outstanding

theorem readExact_of_le {n : Nat} {s : Stream} (h : n ≤ s.supply.1.length) :
    ∃ t, s.readExact n = (.ok (s.supply.1.take n), t) ∧
      t.supply = (s.supply.1.drop n, s.supply.2) := by
  fun_induction readExact n s with
  | case1 s => exact ⟨s, rfl, rfl⟩
  | case2 n s hn why t hr =>
    cases delivers_of_read_eq (Nat.pos_of_ne_zero hn) hr with
    | stopped supply =>
      rw [supply] at h
      exact absurd (Nat.le_zero.1 h) hn
  | case3 n s hn t hr _ ih =>
    cases delivers_of_read_eq (Nat.pos_of_ne_zero hn) hr with
    | interrupted supply _ =>
      rw [← supply] at h ⊢
      exact ih h
  | case4 n s hn bs t hr _ rest ih =>
    cases delivers_of_read_eq (Nat.pos_of_ne_zero hn) hr with
    | bytes _ length supply _ =>
      rw [supply] at h ⊢
      dsimp only at h ⊢
      rw [List.length_append] at h
      obtain ⟨t', ht', hsupply⟩ := ih (by omega)
      have hrest : rest = _ := ht'
      refine ⟨t', ?_, ?_⟩
      · rw [hrest, List.take_append, List.take_of_length_le length]
        rfl
      · rw [hsupply, List.drop_append, List.drop_of_length_le length]
        rfl

theorem readExact_of_lt {n : Nat} {s : Stream} (h : s.supply.1.length < n) :
    ∃ t, s.readExact n = (.error s.supply.2, t) ∧ t.supply = ([], s.supply.2) := by
  fun_induction readExact n s with
  | case1 s => exact absurd h (Nat.not_lt_zero _)
  | case2 n s hn why t hr =>
    cases delivers_of_read_eq (Nat.pos_of_ne_zero hn) hr with
    | stopped supply => exact ⟨s, by rw [supply], by rw [supply]⟩
  | case3 n s hn t hr _ ih =>
    cases delivers_of_read_eq (Nat.pos_of_ne_zero hn) hr with
    | interrupted supply _ =>
      rw [← supply] at h ⊢
      exact ih h
  | case4 n s hn bs t hr _ rest ih =>
    cases delivers_of_read_eq (Nat.pos_of_ne_zero hn) hr with
    | bytes _ length supply _ =>
      rw [supply] at h ⊢
      dsimp only at h ⊢
      rw [List.length_append] at h
      obtain ⟨t', ht', hsupply⟩ := ih (by omega)
      have hrest : rest = _ := ht'
      exact ⟨t', by rw [hrest]; rfl, hsupply⟩

/-- The stream answers these calls one after the other, each by an exact read. A call that is refused
does not reach it. -/
inductive Answers : Stream → List Call → Stream → Prop
  | nil (s : Stream) : Answers s [] s
  | asked {s t u : Stream} {call : Call} {calls : List Call} {r : Except Stop (List UInt8)}
    (asked : call.asked = true) (exact : s.readExact call.wanted = (r, t)) (offset : Nat)
    (answer : call.answer = r.mapError fun why => ⟨why.cause call.wanted, offset, none⟩)
    (tail : Answers t calls u) : Answers s (call :: calls) u
  | refused {s t : Stream} {call : Call} {calls : List Call} (asked : call.asked = false)
    (tail : Answers s calls t) : Answers s (call :: calls) t

end Stream

/-- The stream has still to deliver what is pending here. -/
def Place.Over (p : Place) (s : Stream) : Prop :=
  s.supply = (p.pending, p.stop)

theorem Call.Moves.answers {call : Call} {calls : List Call} {p q : Place} {s : Stream}
    (h : call.Moves p q) (hs : p.Over s)
    (htail : ∀ t, q.Over t → ∃ u, t.Answers calls u) : ∃ u, s.Answers (call :: calls) u := by
  cases h with
  | delivered bs rest stop position totalSize =>
    have hle : bs.length ≤ s.supply.1.length := by
      rw [hs, List.length_append]
      exact Nat.le_add_right _ _
    obtain ⟨t, hread, hsupply⟩ := Stream.readExact_of_le hle
    rw [hs, List.take_left] at hread
    rw [hs, List.drop_left] at hsupply
    obtain ⟨u, hu⟩ := htail t hsupply
    exact ⟨u, .asked rfl hread 0 rfl hu⟩
  | @ranOff _ n short =>
    have hlt : s.supply.1.length < n := by
      rw [hs]
      exact short
    obtain ⟨t, hread, hsupply⟩ := Stream.readExact_of_lt hlt
    rw [hs] at hread hsupply
    obtain ⟨u, hu⟩ := htail t hsupply
    exact ⟨u, .asked rfl hread p.position rfl hu⟩
  | refused long =>
    obtain ⟨u, hu⟩ := htail s hs
    exact ⟨u, .refused rfl hu⟩

theorem Path.answers {p q : Place} {calls : List Call} (h : Path p calls q) {s : Stream}
    (hs : p.Over s) : ∃ t, s.Answers calls t := by
  induction h generalizing s with
  | nil p => exact ⟨s, .nil s⟩
  | cons head _ ih => exact head.answers hs fun t ht => ih ht

end WasmBinary
