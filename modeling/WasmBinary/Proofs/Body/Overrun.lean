import WasmBinary.Proofs.Body.Exact

/-! How far a function body reaches past the bound of its section. The bound is looked at between
instructions only, so the local groups, or the last instruction, may still cross it, and a body that
declares more bytes than the section has left can be accepted. -/
namespace WasmBinary.Body

open Decoder

variable {declared : UInt32} {c m m' : Cursor} {locals locals' : List LocalGroup} {e e' : Expr}

namespace Boundary

private theorem exists_next (h : Boundary c locals e m) (h' : Boundary c locals' e' m')
    (hlt : m.position < m'.position) :
    ∃ i n, Instruction.decode m = .ok i n ∧ n.position ≤ m'.position := by
  obtain ⟨hp, hne⟩ := h.prefix_of_position_lt h' hlt
  obtain ⟨rest, rfl, hrest⟩ := h.exists_steps h' hp
  cases hrest with
  | nil => simp at hne
  | cons head tail => exact ⟨_, _, head, Instruction.position_le_of_steps tail⟩

private theorem locals_position_le (h : Boundary c locals e m) :
    (cursorOf (vector LocalGroup.decode c)).position ≤ m.position := by
  obtain ⟨l, hlocals, hsteps⟩ := h
  rw [hlocals]
  exact Instruction.position_le_of_steps hsteps

private theorem eq_of_position_eq (h : Boundary c locals e m) (h' : Boundary c locals' e' m')
    (hpos : m.position = m'.position) : m = m' := by
  have heq : e = e' := by
    by_contra hne
    rcases h.prefix_or_prefix h' with hp | hp
    · exact absurd (h.position_lt h' hp hne) (by omega)
    · exact absurd (h'.position_lt h hp (Ne.symm hne)) (by omega)
  subst heq
  exact h.unique h'

private theorem exists_last (h : Boundary c locals e m) (he : e ≠ []) :
    ∃ e' i n, e' <+: e ∧ e' ≠ e ∧ Boundary c locals e' n ∧ Instruction.decode n = .ok i m := by
  obtain ⟨l, hlocals, hsteps⟩ := h
  rcases List.eq_nil_or_concat e with rfl | ⟨e', i, rfl⟩
  · exact absurd rfl he
  · rw [List.concat_eq_append] at *
    obtain ⟨n, hfirst, hlast⟩ := hsteps.exists_of_concat
    exact ⟨e', i, n, List.prefix_append e' [i], by simp, ⟨l, hlocals, hfirst⟩, hlast⟩

end Boundary

private theorem cursorOf_checkSize {start : Nat} {body : Body} :
    cursorOf (checkSize start body m) = m := by
  rw [checkSize_apply]
  split <;> rfl

theorem cursorOf_decode_cases (declared : UInt32) (c : Cursor) :
    cursorOf (Body.decode declared c) = cursorOf (vector LocalGroup.decode c) ∨
      ∃ locals e m, Boundary c locals e m ∧ m.position < c.bound ∧
        cursorOf (Body.decode declared c) = cursorOf (Instruction.decode m) := by
  rcases decode_cases declared c with ⟨error, c', hlocals, hdecode⟩ |
    ⟨locals, e, m, error, c', hboundary, hmore, herror, hdecode⟩ | ⟨locals, e, m, hends⟩
  · rw [hdecode, hlocals]
    exact .inl rfl
  · refine .inr ⟨locals, e, m, hboundary, hmore.2, ?_⟩
    rw [hdecode, herror]
    rfl
  · rw [decode_of_endsAt hends, cursorOf_checkSize]
    by_cases he : e = []
    · subst he
      obtain ⟨l, hlocals, hsteps⟩ := hends.boundary
      cases hsteps
      rw [hlocals]
      exact .inl rfl
    · obtain ⟨e', i, n, hp, hne, hboundary, hlast⟩ := hends.boundary.exists_last he
      refine .inr ⟨locals, e', n, hboundary, (hends.goes_on e' n hp hne hboundary).2, ?_⟩
      rw [hlast]
      rfl

/-- The body is not accepted, and no byte from the bound of the section on is taken. -/
def KeepsWithin (declared : UInt32) (c : Cursor) : Prop :=
  (∀ body c', Body.decode declared c ≠ .ok body c') ∧
    (cursorOf (Body.decode declared c)).position ≤ c.bound

/-- Neither the local groups cross the bound of the section nor does an instruction that begins
before it, whether they can be decoded or not. -/
structure ItemsWithin (c : Cursor) : Prop where
  locals : (cursorOf (vector LocalGroup.decode c)).position ≤ c.bound
  instructions : ∀ locals e m, Boundary c locals e m → m.position < c.bound →
    (cursorOf (Instruction.decode m)).position ≤ c.bound

theorem keepsWithin_of_itemsWithin (hlt : c.bound < c.position + declared.toNat)
    (h : ItemsWithin c) : KeepsWithin declared c := by
  have hend : (cursorOf (Body.decode declared c)).position ≤ c.bound := by
    rcases cursorOf_decode_cases declared c with heq | ⟨locals, e, m, hboundary, hbound, heq⟩
    · rw [heq]
      exact h.locals
    · rw [heq]
      exact h.instructions locals e m hboundary hbound
  refine ⟨fun body c' hok => ?_, hend⟩
  obtain ⟨xs, hpass, -, hlength⟩ := passes_of_decode hok
  have hpos := hpass.position
  rw [hok] at hend
  have hle : c'.position ≤ c.bound := hend
  omega

theorem itemsWithin_of_keepsWithin (hlt : c.bound < c.position + declared.toNat)
    (h : KeepsWithin declared c) : ItemsWithin c := by
  have hend := h.2
  rcases decode_cases declared c with ⟨error, c', hlocals, hdecode⟩ |
    ⟨locals, e, m, error, c', hboundary, hmore, herror, hdecode⟩ | ⟨locals, e, m, hends⟩
  · rw [hdecode] at hend
    refine ⟨hlocals ▸ hend, fun locals' e' n hboundary' => ?_⟩
    obtain ⟨l, hlocals', -⟩ := hboundary'
    rw [hlocals] at hlocals'
    cases hlocals'
  · rw [hdecode] at hend
    refine ⟨hboundary.locals_position_le.trans hmore.2.le, fun locals' e' n hboundary' _ => ?_⟩
    rcases Nat.lt_trichotomy n.position m.position with hbefore | heq | hafter
    · obtain ⟨i, n', hnext, hle⟩ := hboundary'.exists_next hboundary hbefore
      rw [hnext]
      exact hle.trans hmore.2.le
    · rw [hboundary'.eq_of_position_eq hboundary heq, herror]
      exact hend
    · -- The instruction at `m` would have to succeed on the way to `n`.
      obtain ⟨i, n', hnext, -⟩ := hboundary.exists_next hboundary' hafter
      rw [herror] at hnext
      cases hnext
  · rw [decode_of_endsAt hends, cursorOf_checkSize] at hend
    refine ⟨hends.boundary.locals_position_le.trans hend, fun locals' e' n hboundary hbound => ?_⟩
    have hstops := hends.stops
    obtain ⟨i, n', hnext, hle⟩ := hboundary.exists_next hends.boundary (by omega)
    rw [hnext]
    exact hle.trans hend

/-- A body that declares more than its section has left is kept within the section if and only if
its items are. What it takes from the bound on belongs to its local groups or to one instruction. -/
theorem decode_keepsWithin_iff (hlt : c.bound < c.position + declared.toNat) :
    (KeepsWithin declared c ↔ ItemsWithin c) ∧
      (cursorOf (Body.decode declared c) = cursorOf (vector LocalGroup.decode c) ∨
        ∃ locals e m, Boundary c locals e m ∧ m.position < c.bound ∧
          cursorOf (Body.decode declared c) = cursorOf (Instruction.decode m)) :=
  ⟨⟨itemsWithin_of_keepsWithin hlt, keepsWithin_of_itemsWithin hlt⟩,
    cursorOf_decode_cases declared c⟩

/-- In `00 01 0B`, with the bound after the second byte, a body of three bytes is kept within. -/
theorem decode_keepsWithin_iff_nop :
    KeepsWithin 3 ⟨[0x00, 0x01, 0x0B], .endOfInput, 0, 3, 2, #[]⟩ ∧
      ItemsWithin ⟨[0x00, 0x01, 0x0B], .endOfInput, 0, 3, 2, #[]⟩ := by
  have hkeeps : KeepsWithin 3 ⟨[0x00, 0x01, 0x0B], .endOfInput, 0, 3, 2, #[]⟩ := by
    have hanswer : answerOf (Body.decode 3 ⟨[0x00, 0x01, 0x0B], .endOfInput, 0, 3, 2, #[]⟩) =
        .error ⟨.bodySizeMismatch 3 2, 0, none⟩ := by
      decide +kernel
    refine ⟨fun body c' hok => ?_, by decide +kernel⟩
    rw [hok] at hanswer
    cases hanswer
  exact ⟨hkeeps, (decode_keepsWithin_iff (by decide)).1.1 hkeeps⟩

/-- In `0A 02 01 01 00` the section of two bytes ends before the last one, which is taken for the
local groups of a body of one byte. In `0A 04 01 03 00 41 00` it is taken for the operand of an
instruction. Both bodies are accepted. -/
theorem decode_past_bound :
    (∃ c : Cursor, c.Reads [0x0A, 0x02, 0x01, 0x01, 0x00] ∧ c.position = 4 ∧ c.bound = 4 ∧
      answerOf (Body.decode 1 c) = .ok ⟨1, [], []⟩ ∧ (cursorOf (Body.decode 1 c)).position = 5) ∧
    ∃ c : Cursor, c.Reads [0x0A, 0x04, 0x01, 0x03, 0x00, 0x41, 0x00] ∧ c.position = 4 ∧
      c.bound = 6 ∧ (answerOf (Body.decode 3 c)).isOk = true ∧
      (cursorOf (Body.decode 3 c)).position = 7 := by
  constructor
  · refine ⟨⟨[0x00], .endOfInput, 4, 5, 4, #[]⟩, ⟨rfl, by decide, rfl, rfl⟩, rfl, rfl, ?_, ?_⟩
    · decide +kernel
    · decide +kernel
  · refine ⟨⟨[0x00, 0x41, 0x00], .endOfInput, 4, 7, 6, #[]⟩, ⟨rfl, by decide, rfl, rfl⟩, rfl, rfl,
      ?_, ?_⟩
    · decide +kernel
    · decide +kernel

end WasmBinary.Body
