import WasmBinary.Proofs.Comparison.Basic
import WasmBinary.Proofs.Format.Section

/-! All decoders respect every simulation. -/
namespace WasmBinary

open Decoder Comparison

namespace Leb128

/-- The error for an encoding that began at `start` and could not be read on. -/
def cutOff (width start : Nat) (e : DecodeError) : DecodeError :=
  match e.cause with
  | .unexpectedEnd _ => ⟨.malformedInteger width .truncated, start, none⟩
  | _ => e

theorem next_apply (width start : Nat) (c : Cursor) :
    next width start c = mapError (cutOff width start) (byte c) := by
  unfold next
  cases byte c with
  | ok b c' => rfl
  | error e c' =>
    obtain ⟨cause, offset, within⟩ := e
    cases cause <;> rfl

end Leb128

namespace Simulation

variable {α : Type} (S : Simulation)

theorem agree_next (width start : Nat) :
    S.Agree Eq (Leb128.next width start) (Leb128.next width (start + S.shift)) := by
  intro c c' h
  rw [Leb128.next_apply, Leb128.next_apply]
  refine outcome_mapError ?_ ?_ ?_ (S.byte h)
  · intro e
    unfold Leb128.cutOff DecodeError.moved
    dsimp only
    split <;> rfl
  · intro e he
    unfold Leb128.cutOff
    split
    · next n hn => exact S.truncatedFirst (hn ▸ he) width
    · exact he
  · intro e he
    unfold Leb128.cutOff
    split
    · next n hn => exact S.truncatedSecond (hn ▸ he) width
    · exact he

theorem agree_unsignedFrom (width start more bits : Nat) (b : UInt8) :
    S.Agree Eq (Leb128.unsignedFrom width start more bits b)
      (Leb128.unsignedFrom width (start + S.shift) more bits b) := by
  induction more generalizing bits b with
  | zero =>
    unfold Leb128.unsignedFrom
    split
    · exact agree_failAt _ _
    · split
      · exact agree_pure rfl
      · exact agree_failAt _ _
  | succ more ih =>
    unfold Leb128.unsignedFrom
    split
    · exact agree_failAt _ _
    · split
      · exact agree_pure rfl
      · exact (S.agree_next width start).bind_eq fun a =>
          (ih (bits - 7) a).bind_eq fun n => agree_pure rfl

theorem agree_signedFrom (width start more bits : Nat) (b : UInt8) :
    S.Agree Eq (Leb128.signedFrom width start more bits b)
      (Leb128.signedFrom width (start + S.shift) more bits b) := by
  induction more generalizing bits b with
  | zero =>
    unfold Leb128.signedFrom
    split
    · split
      · exact agree_pure rfl
      · exact agree_failAt _ _
    · exact agree_failAt _ _
  | succ more ih =>
    unfold Leb128.signedFrom
    split
    · split
      · exact agree_pure rfl
      · exact agree_failAt _ _
    · exact (S.agree_next width start).bind_eq fun a =>
        (ih (bits - 7) a).bind_eq fun n => agree_pure rfl

theorem agree_unsigned (width : Nat) :
    S.Agree Eq (Leb128.unsigned width) (Leb128.unsigned width) :=
  S.agree_position_bind fun start => (S.agree_next width start).bind_eq fun b =>
    S.agree_unsignedFrom width start _ _ b

theorem agree_signed (width : Nat) :
    S.Agree Eq (Leb128.signed width) (Leb128.signed width) :=
  S.agree_position_bind fun start => (S.agree_next width start).bind_eq fun b =>
    S.agree_signedFrom width start _ _ b

theorem agree_map {β : Type} {d : Decoder α} (hd : S.Agree Eq d d) (f : α → β) :
    S.Agree Eq (f <$> d) (f <$> d) :=
  hd.map fun _ _ h => congrArg f h

theorem agree_u32 : S.Agree Eq Leb128.u32 Leb128.u32 :=
  S.agree_map (S.agree_unsigned 32) _

theorem agree_indexedVector {d : Nat → Decoder α} (hd : ∀ i, S.Agree Eq (d i) (d i)) :
    S.Agree Eq (indexedVector d) (indexedVector d) :=
  S.agree_u32.bind_eq fun count => S.agree_times hd count.toNat

theorem agree_vector {d : Decoder α} (hd : S.Agree Eq d d) : S.Agree Eq (vector d) (vector d) :=
  S.agree_indexedVector fun _ => hd

theorem agree_byteVector : S.Agree Eq byteVector byteVector :=
  S.agree_u32.bind_eq fun count => S.read count.toNat

theorem agree_name : S.Agree Eq name name := by
  refine S.agree_position_bind fun offset => S.agree_byteVector.bind_eq fun bs => ?_
  cases Utf8.decode bs with
  | ok s => exact agree_pure rfl
  | error fault => exact agree_failAt offset _

theorem agree_valType : S.Agree Eq ValType.decode ValType.decode :=
  S.agree_marker _ _

theorem agree_funcType : S.Agree Eq FuncType.decode FuncType.decode := by
  have types := S.agree_vector S.agree_valType
  exact (S.agree_marker _ _).bind_eq fun _ => types.bind_eq fun params =>
    types.bind_eq fun results => agree_pure rfl

theorem agree_limits : S.Agree Eq Limits.decode Limits.decode := by
  refine (S.agree_marker _ _).bind_eq fun hasMax => S.agree_u32.bind_eq fun min => ?_
  cases hasMax with
  | false => exact agree_pure rfl
  | true => exact S.agree_u32.bind_eq fun max => agree_pure rfl

theorem agree_index {space : IndexSpace} :
    S.Agree Eq (Index.decode : Decoder (Index space)) Index.decode :=
  S.agree_map S.agree_u32 _

theorem agree_blockTypeAfter (offset : Nat) (b : UInt8) :
    S.Agree Eq (BlockType.decodeAfter offset b) (BlockType.decodeAfter (offset + S.shift) b) := by
  unfold BlockType.decodeAfter
  split
  · exact agree_pure rfl
  · split
    · cases ValType.ofMarker? b with
      | some t => exact agree_pure rfl
      | none => exact agree_failAt offset _
    · refine (S.agree_signedFrom 33 offset _ _ b).bind_eq fun index => ?_
      split
      · exact agree_pure rfl
      · exact agree_failAt offset _

theorem agree_blockType : S.Agree Eq BlockType.decode BlockType.decode :=
  S.agree_position_bind fun offset => S.byte.bind_eq fun b => S.agree_blockTypeAfter offset b

theorem agree_immediate (s : Shape) : S.Agree Eq (Immediate.decode s) (Immediate.decode s) := by
  have index {space : IndexSpace} :
      S.Agree Eq (Index.decode : Decoder (Index space)) Index.decode := S.agree_index
  cases s with
  | none => exact agree_pure rfl
  | blockType => exact S.agree_map S.agree_blockType _
  | brTable =>
    exact (S.agree_vector index).bind_eq fun _ => index.bind_eq fun _ => agree_pure rfl
  | callIndirect => exact index.bind_eq fun _ => index.bind_eq fun _ => agree_pure rfl
  | selectTypes => exact S.agree_map (S.agree_vector S.agree_valType) _
  | memArg => exact S.agree_u32.bind_eq fun _ => S.agree_u32.bind_eq fun _ => agree_pure rfl
  | i32 => exact S.agree_map (S.agree_map (S.agree_signed 32) _) _
  | i64 => exact S.agree_map (S.agree_map (S.agree_signed 64) _) _
  | f32 => exact (S.bytes 4).bind_eq fun _ => agree_pure rfl
  | f64 => exact (S.bytes 8).bind_eq fun _ => agree_pure rfl
  | refType => exact S.agree_map (S.agree_marker _ _) _
  | _ => exact S.agree_map index _

theorem agree_instruction : S.Agree Eq Instruction.decode Instruction.decode :=
  (S.agree_marker _ _).bind_eq fun opcode =>
    (S.agree_immediate opcode.shape).bind_eq fun _ => agree_pure rfl

theorem agree_expr : S.Agree Eq Expr.decode Expr.decode :=
  S.agree_collectUntil _ S.agree_instruction _ _

theorem agree_localGroup : S.Agree Eq LocalGroup.decode LocalGroup.decode :=
  S.agree_u32.bind_eq fun _ => S.agree_valType.bind_eq fun _ => agree_pure rfl

theorem agree_export : S.Agree Eq Export.decode Export.decode :=
  S.agree_name.bind_eq fun _ => (S.agree_marker _ _).bind_eq fun _ =>
    S.agree_u32.bind_eq fun _ => agree_pure rfl

theorem agree_dataSegment : S.Agree Eq DataSegment.decode DataSegment.decode :=
  S.agree_index.bind_eq fun _ => S.agree_expr.bind_eq fun _ =>
    S.agree_byteVector.bind_eq fun _ => (S.agree_report _ _).bind_eq fun _ => agree_pure rfl

private theorem hasMore_eq {c c' : Cursor} (h : S.related c c') (start : Nat) (declared : UInt32)
    (hbound : c.position < c.bound ↔ c'.position < c'.bound) :
    Body.hasMore start declared c = Body.hasMore (start + S.shift) declared c' := by
  have hpos := S.position h
  have hconsumed : c'.position - (start + S.shift) = c.position - start := by omega
  unfold Body.hasMore
  rw [hconsumed, decide_eq_decide.2 hbound]

/-- The loops over the instructions of a body agree, unless the bound of the first run ends its
loop before the body is complete. -/
theorem outcome_instructions {c c' : Cursor} (h : S.related c c') (start : Nat)
    (declared : UInt32) :
    S.Outcome Eq
      (collectWhile (Body.hasMore start declared) Instruction.decode
        Instruction.advances_decode c)
      (collectWhile (Body.hasMore (start + S.shift) declared) Instruction.decode
        Instruction.advances_decode c') ∨
    (∃ e m, collectWhile (Body.hasMore start declared) Instruction.decode
        Instruction.advances_decode c = .ok e m ∧ m.position - start < declared.toNat ∧
      ∀ declared consumed, S.excusesFirst (.bodySizeMismatch declared consumed)) := by
  generalize hn : c.left = n
  induction n using Nat.strongRecOn generalizing c c' with
  | ind n ih =>
    subst hn
    rcases S.bound h with hbound | ⟨hstop, hexcused⟩
    · rw [collectWhile_eq, collectWhile_eq _ _ _ c', ← S.hasMore_eq h start declared hbound]
      split
      · refine Classical.or_iff_not_imp_right.2 fun hcut => ?_
        refine outcome_bind (S.agree_instruction h) fun i j m m' hi hij hm => ?_
        subst hij
        rcases ih _ (Instruction.advances_decode hi) hm rfl with htail | ⟨e, m'', he, hshort⟩
        · exact outcome_map htail fun _ _ hes => congrArg (i :: ·) hes
        · refine absurd ⟨i :: e, m'', ?_, hshort⟩ hcut
          rw [bind_apply, hi]
          dsimp only
          rw [map_apply, he]
      · exact .inl ⟨rfl, h⟩
    · have hdone : Body.hasMore start declared c = false := by
        simp [Body.hasMore, hstop]
      rw [collectWhile_eq, collectWhile_eq _ _ _ c', if_neg (by simp [hdone])]
      by_cases hshort : c.position - start < declared.toNat
      · exact .inr ⟨[], c, rfl, hshort, hexcused⟩
      · have hpos := S.position h
        have hdone' : Body.hasMore (start + S.shift) declared c' = false := by
          simp only [Body.hasMore, Bool.and_eq_false_iff, decide_eq_false_iff_not]
          omega
        rw [if_neg (by simp [hdone'])]
        exact .inl ⟨rfl, h⟩

private theorem agree_checkSize (start : Nat) (body : Body) :
    S.Agree Eq (Body.checkSize start body) (Body.checkSize (start + S.shift) body) := by
  refine S.agree_position_bind fun here => ?_
  have hconsumed : here + S.shift - (start + S.shift) = here - start := by omega
  dsimp only
  rw [hconsumed]
  split
  · exact agree_pure rfl
  · exact agree_failAt start _

theorem agree_body (declared : UInt32) :
    S.Agree Eq (Body.decode declared) (Body.decode declared) := by
  rw [Body.decode_eq]
  refine S.agree_position_bind fun start =>
    (S.agree_vector S.agree_localGroup).bind_eq fun locals => ?_
  intro c c' h
  rcases S.outcome_instructions h start declared with hloop | ⟨e, m, he, hshort, hexcused⟩
  · refine outcome_bind hloop fun e e' m m' _ hee hm => ?_
    subst hee
    exact S.agree_checkSize start _ hm
  · rw [bind_apply, he]
    dsimp only
    rw [Body.checkSize_apply, if_neg (by dsimp only; omega)]
    exact outcome_of_excusesFirst (hexcused _ _) m _

theorem agree_bodyEntry (index : Nat) :
    S.Agree Eq (Body.decodeEntry index) (Body.decodeEntry index) :=
  S.agree_u32.bind_eq fun size => S.agree_position_bind fun _ =>
    (S.agree_body size).bind_eq fun _ => (S.agree_report _ _).bind_eq fun _ => agree_pure rfl

theorem agree_payload (id : SectionId) :
    S.Agree Eq (Section.decodePayload id) (Section.decodePayload id) := by
  cases id with
  | types => exact S.agree_map (S.agree_vector S.agree_funcType) _
  | functions => exact S.agree_map (S.agree_vector S.agree_index) _
  | memories => exact S.agree_map (S.agree_vector S.agree_limits) _
  | exports => exact S.agree_map (S.agree_vector S.agree_export) _
  | code => exact S.agree_map (S.agree_indexedVector S.agree_bodyEntry) _
  | data => exact S.agree_map (S.agree_vector S.agree_dataSegment) _
  | _ => exact S.agree_fail _

theorem agree_sized (id : SectionId) (size : UInt32) :
    S.Agree Eq (Section.decodeSized id size) (Section.decodeSized id size) := by
  unfold Section.decodeSized
  split
  · split
    · exact agree_pure rfl
    · exact S.agree_payload id
  · exact S.agree_payload id

end Simulation

def SectionEntry.moved (n : Nat) (e : SectionEntry) : SectionEntry :=
  { e with header := { e.header with offset := e.header.offset + n } }

namespace Simulation

variable (S : Simulation)

theorem agree_entryAfter (id : SectionId) : S.Agree (fun e e' => e' = e.moved S.shift)
    (SectionEntry.decodeAfter id) (SectionEntry.decodeAfter id) := by
  refine S.agree_u32.bind_eq fun size => S.agree_position_bind fun offset =>
    (S.agree_report _ _).bind_eq fun _ => ?_
  rw [Nat.add_right_comm]
  refine (S.agree_withBound (S.agree_sized id size) (offset + size.toNat)).bind_eq fun payload =>
    S.agree_position_bind fun here => ?_
  have hconsumed : here + S.shift - (offset + S.shift) = here - offset := by omega
  dsimp only
  rw [hconsumed]
  split
  · exact agree_pure rfl
  · exact agree_failAt offset _

theorem agree_entry : S.Agree (fun e e' => e' = e.moved S.shift)
    SectionEntry.decode SectionEntry.decode := by
  refine (S.agree_marker _ _).bind_eq fun id => Agree.inSection ?_ id
  split
  · exact S.agree_entryAfter id
  · exact S.agree_fail _

end Simulation
end WasmBinary
