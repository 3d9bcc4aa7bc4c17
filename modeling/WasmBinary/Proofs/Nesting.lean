import WasmBinary.Proofs.Format.Instruction
import WasmBinary.Proofs.Loop

/-! Where an expression ends: with the first `end` that closes no block of its own, however deep the
blocks before it are nested. -/
namespace WasmBinary

open Decoder

theorem BlockType.Encodes.ne_nil {bs : List UInt8} {t : BlockType} (h : Encodes bs t) :
    bs ≠ [] := by
  intro hnil
  subst hnil
  cases h with
  | value ht => exact absurd ht (by simp [ValType.Encodes])
  | type hi => exact hi.delimited

private theorem Opcode.shape_of_opensBlock {op : Opcode} (h : op.opensBlock = true) :
    op.shape = .blockType := by
  unfold opensBlock at h
  split at h
  · rfl
  · rfl
  · rfl
  · cases h

theorem Immediate.Encodes.ne_nil {s : Shape} {x : Immediate s} {bs : List UInt8} (h : x.Encodes bs)
    (hs : s = .blockType) : bs ≠ [] := by
  cases x with
  | block t => exact BlockType.Encodes.ne_nil h
  | _ => cases hs

namespace Expr

variable {c c' : Cursor} {e : Expr}

/-! ### The depth -/

/-- An instruction that opens a block takes two bytes or more. -/
theorem two_mul_openers_le {bs : List UInt8} (h : Format.Each Instruction.Encodes bs e) :
    2 * openers e ≤ bs.length := by
  induction h with
  | nil => simp [openers]
  | @cons bs cs i e head _ ih =>
    have hhead : 2 * openers [i] ≤ bs.length := by
      cases head with
      | @intro os _ operands =>
        by_cases hopens : i.opcode.opensBlock = true
        · have hne := operands.ne_nil (Opcode.shape_of_opensBlock hopens)
          have hpos := List.length_pos_of_ne_nil hne
          have hone : openers [i] = 1 := by simp [openers, hopens]
          rw [hone, List.length_cons]
          omega
        · have hzero : openers [i] = 0 := by simp [openers, hopens]
          rw [hzero]
          omega
    rw [openers_cons, List.length_append]
    omega

theorem ends_add_depth {start depth : Nat}
    (h : e.foldlM Instruction.depthAfter? start = some depth) :
    ends e + depth = openers e + start := by
  induction e generalizing start with
  | nil =>
    have hdepth : start = depth := by simpa using h
    simp [ends, openers, hdepth]
  | cons i e ih =>
    rw [List.foldlM_cons] at h
    obtain ⟨next, hnext, hrest⟩ := Option.bind_eq_some_iff.1 h
    have hstep := depth_of_depthAfter?_eq_some hnext
    have htail := ih hrest
    rw [ends_cons, openers_cons]
    omega

theorem depth_lt_of_steps {depth : Nat} (hleft : c.left < 2 * UInt32.size)
    (h : Steps Instruction.decode c e c')
    (hdepth : e.foldlM Instruction.depthAfter? 0 = some depth) : depth < UInt32.size := by
  obtain ⟨bs, hpass, heach⟩ := h.each (Instruction.follows_decode (E := never)).sound
  have hbytes := two_mul_openers_le heach
  have hsum := ends_add_depth hdepth
  have hpending := congrArg List.length hpass.pending
  rw [List.length_append] at hpending
  unfold Cursor.left at hleft
  omega

/-! ### The end -/

private theorem openers_append (p q : Expr) : openers (p ++ q) = openers p + openers q :=
  List.countP_append

private theorem ends_append (p q : Expr) : ends (p ++ q) = ends p + ends q :=
  List.countP_append

theorem exists_last_end (hexceeds : openers e < ends e)
    (hproper : ∀ p, p <+: e → p ≠ e → ends p ≤ openers p) :
    ∃ p i, e = p ++ [i] ∧ i.isEnd = true ∧ ends e = openers e + 1 := by
  rcases List.eq_nil_or_concat e with rfl | ⟨p, i, rfl⟩
  · simp [openers, ends] at hexceeds
  · rw [List.concat_eq_append] at *
    have hp := hproper p (List.prefix_append p [i]) (by simp)
    rw [openers_append, ends_append] at hexceeds ⊢
    have hend : i.isEnd = true := by
      by_contra hnot
      have hzero : ends [i] = 0 := by simp [ends, hnot]
      omega
    have hone : ends [i] = 1 := by simp [ends, hend]
    exact ⟨p, i, rfl, hend, by omega⟩

theorem isClosed_iff : IsClosed 0 e ↔
    openers e < ends e ∧ ∀ p, p <+: e → p ≠ e → ends p ≤ openers p := by
  constructor
  · intro h
    have hends := h.ends_eq
    exact ⟨by omega, h.ends_le⟩
  · intro h
    obtain ⟨-, -, -, -, hends⟩ := exists_last_end h.1 h.2
    exact ⟨hends, h.2⟩

/-- The instructions `e` can be read one after the other from `c` to `c'`, more of them are ends
than open a block, and this holds of no fewer instructions from `c` on. -/
structure IsShortest (c : Cursor) (e : Expr) (c' : Cursor) : Prop where
  steps : Steps Instruction.decode c e c'
  exceeds : openers e < ends e
  least : ∀ e' m, Steps Instruction.decode c e' m → openers e' < ends e' → e.length ≤ e'.length

/-- Whatever else can be read is the beginning of `e` or begins with it. -/
theorem isShortest_iff : IsShortest c e c' ↔ Steps Instruction.decode c e c' ∧ IsClosed 0 e := by
  rw [isClosed_iff]
  constructor
  · intro h
    refine ⟨h.steps, h.exceeds, fun p hp hne => ?_⟩
    by_contra hlt
    obtain ⟨m, hm⟩ := h.steps.exists_of_prefix hp
    have hle := h.least p m hm (by omega)
    exact hne (hp.eq_of_length_le hle)
  · intro h
    obtain ⟨hsteps, hexceeds, hproper⟩ := h
    refine ⟨hsteps, hexceeds, fun e' m hm hlt => ?_⟩
    rcases hsteps.prefix_or_prefix hm with hp | hp
    · exact hp.length_le
    · by_cases heq : e' = e
      · rw [heq]
      · have hle := hproper e' hp heq
        omega

theorem decode_eq_ok_iff : decode c = .ok e c' ↔ IsShortest c e c' := by
  rw [isShortest_iff, ← closes_iff]
  exact collectUntil_eq_ok_iff

/-- How an expression is read from a cursor on: exactly up to the `end` that closes its outermost
level, or to the first instruction that fails. -/
structure StopsAtOutermostEnd (c : Cursor) : Prop where
  returns_iff : ∀ e c', decode c = .ok e c' ↔ IsShortest c e c'
  /-- The last instruction is an `end`, and the cursor stands right after it. -/
  last : ∀ e c', IsShortest c e c' → ∃ p i m, e = p ++ [i] ∧ i.isEnd = true ∧
    Steps Instruction.decode c p m ∧ Instruction.decode m = .ok i c'
  ends_eq : ∀ e c', IsShortest c e c' → ends e = openers e + 1
  ends_le : ∀ e c', IsShortest c e c' → ∀ p, p <+: e → p ≠ e → ends p ≤ openers p
  fails : (∀ e m, Steps Instruction.decode c e m → ends e ≤ openers e) →
    ∃ e m error c', Steps Instruction.decode c e m ∧ Instruction.decode m = .error error c' ∧
      decode c = .error error c'
  /-- A depth of 32 bits is enough for an input of fewer than 2^33 bytes. -/
  depth_lt : c.left < 2 * UInt32.size → ∀ e m depth, Steps Instruction.decode c e m →
    e.foldlM Instruction.depthAfter? 0 = some depth → depth < UInt32.size

/-- Wherever an expression begins, it ends with the `end` of its outermost level. -/
theorem decode_stops_at_outermost_end (c : Cursor) : StopsAtOutermostEnd c where
  returns_iff e c' := decode_eq_ok_iff
  last e c' h := by
    obtain ⟨hsteps, hclosed⟩ := isShortest_iff.1 h
    obtain ⟨hexceeds, hproper⟩ := isClosed_iff.1 hclosed
    obtain ⟨p, i, rfl, hend, -⟩ := exists_last_end hexceeds hproper
    obtain ⟨m, hp, hi⟩ := hsteps.exists_of_concat
    exact ⟨p, i, m, rfl, hend, hp, hi⟩
  ends_eq e c' h := (isShortest_iff.1 h).2.ends_eq
  ends_le e c' h := (isShortest_iff.1 h).2.ends_le
  fails h := by
    cases hdecode : decode c with
    | ok e c' =>
      have hshortest := decode_eq_ok_iff.1 hdecode
      have hle := h e c' hshortest.steps
      have hlt := hshortest.exceeds
      omega
    | error error c' =>
      obtain ⟨e, m, hsteps, herror⟩ := steps_of_collectUntil_error hdecode
      exact ⟨e, m, error, c', hsteps, herror, rfl⟩
  depth_lt hleft e m depth hsteps hdepth := depth_lt_of_steps hleft hsteps hdepth

end Expr
end WasmBinary
