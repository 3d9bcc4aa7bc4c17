import Mathlib.Data.List.Chain
import WasmBinary.Instruction.Decoder
import WasmBinary.Proofs.Format.Types

/-! The formats of instructions and of expressions that their last `end` closes. -/
namespace WasmBinary

open Decoder Leb128

variable {E : DecodeError → Prop}

def Index.Encodes {space : IndexSpace} : Format (Index space) := fun bs i =>
  U32 bs i.value

theorem Index.follows_decode {space : IndexSpace} :
    Follows E Index.Encodes (Index.decode : Decoder (Index space)) := by
  refine (follows_u32.map Index.mk).congr fun bs i => ?_
  cases i
  simp [Index.Encodes, Format.map]

/-- The byte 0x40, a value type, or a type index as a signed integer of 33 bits. -/
inductive BlockType.Encodes : Format BlockType
  | empty : Encodes [0x40] .empty
  | value {bs : List UInt8} {t : ValType} (ht : ValType.Encodes bs t) : Encodes bs (.value t)
  | type {bs : List UInt8} {i : TypeIdx} (hi : Signed 33 bs i.value.toNat) : Encodes bs (.type i)

namespace BlockType

/-- A first byte that ends the integer and has the sign bit set begins no type index. -/
private theorem not_signed_of_mem {b : UInt8} (h : 0x40 ≤ b ∧ b < 0x80) {bs : List UInt8}
    {n : Nat} : ¬ Signed 33 (b :: bs) n := by
  intro hs
  have h₁ : 64 ≤ b.toNat := UInt8.le_iff_toNat_le.1 h.1
  have h₂ : b.toNat < 128 := UInt8.lt_iff_toNat_lt.1 h.2
  have hc : ¬ continues b := by
    rw [continues_iff]
    omega
  have hn := ((signed_last (by decide) hc).1 hs).2.2
  unfold signedPayload payload at hn
  rw [if_neg (by omega)] at hn
  omega

theorem marker_mem (t : ValType) : 0x40 ≤ t.marker ∧ t.marker < 0x80 := by
  cases t <;> decide

theorem marker_ne (t : ValType) : t.marker ≠ 0x40 := by
  cases t <;> decide

private theorem encodes_cons_iff {b : UInt8} {bs : List UInt8} {t : BlockType} :
    Encodes (b :: bs) t ↔ (b = 0x40 ∧ bs = [] ∧ t = .empty) ∨
      (∃ v, t = .value v ∧ v.marker = b ∧ bs = []) ∨
      ∃ i, t = .type i ∧ Signed 33 (b :: bs) i.value.toNat := by
  constructor
  · intro h
    cases h with
    | empty => exact .inl ⟨rfl, rfl, rfl⟩
    | value ht =>
      obtain ⟨hb, hbs⟩ := List.cons.inj ht
      exact .inr (.inl ⟨_, rfl, hb.symm, hbs⟩)
    | type hi => exact .inr (.inr ⟨_, rfl, hi⟩)
  · intro h
    rcases h with ⟨rfl, rfl, rfl⟩ | ⟨v, rfl, rfl, rfl⟩ | ⟨i, rfl, hi⟩
    · exact .empty
    · exact .value rfl
    · exact .type hi

/-- The two top bits of the first byte tell a type index from the other block types. -/
private theorem encodes_of_mem_iff {b : UInt8} (h : 0x40 ≤ b ∧ b < 0x80) {bs : List UInt8}
    {t : BlockType} : Encodes (b :: bs) t ↔ (b = 0x40 ∧ bs = [] ∧ t = .empty) ∨
      ∃ v, t = .value v ∧ v.marker = b ∧ bs = [] := by
  have hno : ¬ ∃ i : TypeIdx, t = .type i ∧ Signed 33 (b :: bs) i.value.toNat := by
    intro h
    obtain ⟨i, _, hi⟩ := h
    exact not_signed_of_mem h hi
  rw [encodes_cons_iff, or_iff_left hno]

private theorem encodes_of_not_mem_iff {b : UInt8} (h : ¬ (0x40 ≤ b ∧ b < 0x80)) {bs : List UInt8}
    {t : BlockType} :
    Encodes (b :: bs) t ↔ ∃ i, t = .type i ∧ Signed 33 (b :: bs) i.value.toNat := by
  have hempty : b ≠ 0x40 := by
    intro hb
    subst hb
    exact h (by decide)
  have hvalue : ∀ v : ValType, v.marker ≠ b := fun v hv => h (hv ▸ marker_mem v)
  simp [encodes_cons_iff, hempty, hvalue]

private theorem follows_index (offset : Nat) (b : UInt8) :
    Follows E (fun bs (t : BlockType) => ∃ i, t = .type i ∧ Signed 33 (b :: bs) i.value.toNat)
      (do
        let index ← signedFrom 33 offset (moreBytes 33) 33 b
        if 0 ≤ index then return .type ⟨UInt32.ofNat index.toNat⟩
        else failAt offset (.invalidValType b)) := by
  have hcheck : ∀ index : Int, Follows E
      (fun bs (t : BlockType) => 0 ≤ index ∧ bs = [] ∧ t = .type ⟨UInt32.ofNat index.toNat⟩)
      (if 0 ≤ index then return .type ⟨UInt32.ofNat index.toNat⟩
        else failAt offset (.invalidValType b)) := by
    intro index
    split
    · next h => exact (follows_pure _).congr fun bs t => by simp [Format.pure, h]
    · next h => exact (follows_failAt _ _).congr fun bs t => by simp [h]
  refine ((follows_signedFrom 33 offset (by decide) rfl b).bind hcheck).congr fun bs t => ?_
  constructor
  · intro h
    obtain ⟨i, ht, hi⟩ := h
    exact ⟨bs, [], i.value.toNat, by simp, hi, by omega, rfl, by simp [ht]⟩
  · intro h
    obtain ⟨bs₁, bs₂, index, hbs, hi, hpos, hnil, ht⟩ := h
    have hlt : index.toNat < 2 ^ 32 := by
      have hu := hi.upper
      omega
    have hw : (UInt32.ofNat index.toNat).toNat = index.toNat := UInt32.toNat_ofNat_of_lt' hlt
    have hint : (index.toNat : Int) = index := Int.toNat_of_nonneg hpos
    rw [hbs, hnil, List.append_nil]
    exact ⟨_, ht, by rwa [hw, hint]⟩

theorem follows_decodeAfter (offset : Nat) (b : UInt8) :
    Follows E (fun bs t => Encodes (b :: bs) t) (decodeAfter offset b) := by
  unfold decodeAfter
  by_cases hmem : (0x40 : UInt8) ≤ b ∧ b < 0x80
  · by_cases hb : b = 0x40
    · rw [if_pos hb]
      subst hb
      refine (follows_pure _).congr fun bs t => ?_
      rw [encodes_of_mem_iff hmem]
      simp [Format.pure, marker_ne]
    · rw [if_neg hb, if_pos hmem]
      cases hv : ValType.ofMarker? b with
      | some v =>
        refine (follows_pure _).congr fun bs t => ?_
        have heq : ∀ w : ValType, w.marker = b ↔ w = v := by
          intro w
          rw [← ValType.ofMarker?_eq_some_iff, hv, Option.some.injEq, eq_comm]
        rw [encodes_of_mem_iff hmem, or_iff_right (fun h => hb h.1)]
        constructor
        · intro h
          obtain ⟨w, ht, hw, hbs⟩ := h
          exact ⟨hbs, by rw [ht, (heq w).1 hw]⟩
        · intro h
          obtain ⟨hbs, ht⟩ := h
          exact ⟨v, ht, (heq v).2 rfl, hbs⟩
      | none =>
        refine (follows_failAt _ _).congr fun bs t => ?_
        have hne : ∀ w : ValType, w.marker ≠ b := by
          intro w hw
          rw [← ValType.ofMarker?_eq_some_iff, hv] at hw
          simp at hw
        rw [encodes_of_mem_iff hmem]
        simp [hb, hne]
  · have hb : b ≠ 0x40 := by
      intro hb
      subst hb
      exact hmem (by decide)
    rw [if_neg hb, if_neg hmem]
    exact (follows_index offset b).congr fun bs t => encodes_of_not_mem_iff hmem

theorem follows_decode : Follows E Encodes decode := by
  refine .position fun offset => ?_
  refine (follows_byte.bind fun b => follows_decodeAfter offset b).congr fun bs t => ?_
  constructor
  · intro h
    cases bs with
    | nil =>
      cases h with
      | value ht => exact absurd ht (by simp [ValType.Encodes])
      | type hi => exact hi.delimited.elim
    | cons b bs => exact ⟨[b], bs, b, rfl, rfl, h⟩
  · intro h
    obtain ⟨_, bs, b, hbs, hb, h⟩ := h
    rw [hbs, hb]
    exact h

end BlockType

/-- The operands of each shape. A floating-point constant is its bits, lowest byte first. -/
def Immediate.Encodes {s : Shape} (bs : List UInt8) : Immediate s → Prop
  | .none => bs = []
  | .block t => BlockType.Encodes bs t
  | .label i => Index.Encodes bs i
  | .brTable targets fallback => ∃ bs₁ bs₂, bs = bs₁ ++ bs₂ ∧
      Format.Vector Index.Encodes bs₁ targets ∧ Index.Encodes bs₂ fallback
  | .func i => Index.Encodes bs i
  | .callIndirect t i => ∃ bs₁ bs₂, bs = bs₁ ++ bs₂ ∧ Index.Encodes bs₁ t ∧ Index.Encodes bs₂ i
  | .select types => Format.Vector ValType.Encodes bs types
  | .localVar i => Index.Encodes bs i
  | .globalVar i => Index.Encodes bs i
  | .table i => Index.Encodes bs i
  | .memArg arg => ∃ bs₁ bs₂, bs = bs₁ ++ bs₂ ∧ U32 bs₁ arg.align ∧ U32 bs₂ arg.offset
  | .memory i => Index.Encodes bs i
  | .i32 n => Signed 32 bs n.toInt
  | .i64 n => Signed 64 bs n.toInt
  | .f32 bits => bs.length = 4 ∧ littleEndian bs = bits.toNat
  | .f64 bits => bs.length = 8 ∧ littleEndian bs = bits.toNat
  | .ref t => RefType.Encodes bs t

theorem littleEndian_lt (bs : List UInt8) : littleEndian bs < 256 ^ bs.length := by
  induction bs with
  | nil => simp [littleEndian]
  | cons b bs ih =>
    have hb := b.toNat_lt
    rw [littleEndian, List.length_cons, Nat.pow_succ]
    omega

theorem follows_littleEndian {α : Type} (n : Nat) (f : Nat → α) :
    Follows E (fun bs x => bs.length = n ∧ x = f (littleEndian bs))
      (bytes n >>= fun bs => pure (f (littleEndian bs))) := by
  refine ((follows_bytes n).bind fun bs => follows_pure _).congr fun bs x => ?_
  constructor
  · intro h
    obtain ⟨hlen, hx⟩ := h
    exact ⟨bs, [], bs, by simp, ⟨rfl, hlen⟩, rfl, hx⟩
  · intro h
    obtain ⟨bs₁, bs₂, a, hbs, ⟨ha, hlen⟩, hnil, hx⟩ := h
    rw [hbs, hnil, List.append_nil, ha]
    exact ⟨hlen, hx⟩

theorem Immediate.follows_decode (s : Shape) :
    Follows E Immediate.Encodes (Immediate.decode s) := by
  have index {space : IndexSpace} :
      Follows E Index.Encodes (Index.decode : Decoder (Index space)) := Index.follows_decode
  have word := follows_u32 (E := E)
  cases s with
  | none => exact (follows_pure _).congr fun bs x => by cases x; simp [Encodes, Format.pure]
  | blockType =>
    exact (BlockType.follows_decode.map _).congr fun bs x => by cases x; simp [Encodes, Format.map]
  | brTable =>
    exact ((follows_vector index).pair index Immediate.brTable).congr fun bs x => by
      cases x; simp [Encodes]
  | callIndirect =>
    exact (index.pair index Immediate.callIndirect).congr fun bs x => by cases x; simp [Encodes]
  | selectTypes =>
    exact ((follows_vector ValType.follows_decode).map _).congr fun bs x => by
      cases x; simp [Encodes, Format.map]
  | memArg =>
    refine (word.pair word fun align offset =>
      Immediate.memArg ⟨align, offset⟩).congr fun bs x => ?_
    cases x with
    | memArg arg =>
      cases arg
      simp [Encodes]
  | i32 => exact (follows_i32.map _).congr fun bs x => by cases x; simp [Encodes, Format.map]
  | i64 => exact (follows_i64.map _).congr fun bs x => by cases x; simp [Encodes, Format.map]
  | f32 =>
    refine (follows_littleEndian 4 fun n => Immediate.f32 (UInt32.ofNat n)).congr fun bs x => ?_
    cases x with
    | f32 bits =>
      refine and_congr_right fun hlen => ?_
      have hlt := littleEndian_lt bs
      rw [hlen] at hlt
      rw [Immediate.f32.injEq, ← UInt32.toNat_inj, UInt32.toNat_ofNat_of_lt' hlt, eq_comm]
  | f64 =>
    refine (follows_littleEndian 8 fun n => Immediate.f64 (UInt64.ofNat n)).congr fun bs x => ?_
    cases x with
    | f64 bits =>
      refine and_congr_right fun hlen => ?_
      have hlt := littleEndian_lt bs
      rw [hlen] at hlt
      rw [Immediate.f64.injEq, ← UInt64.toNat_inj, UInt64.toNat_ofNat_of_lt' hlt, eq_comm]
  | refType =>
    exact (RefType.follows_decode.map _).congr fun bs x => by cases x; simp [Encodes, Format.map]
  | _ => exact (index.map _).congr fun bs x => by cases x; simp [Encodes, Format.map]

namespace Opcode

theorem mem_all (op : Opcode) : op ∈ all := by
  have h : all[op.ctorIdx]? = some op := by cases op <;> rfl
  exact List.mem_of_getElem? h

private theorem pairwise_all : all.Pairwise fun op op' => op.byte.toNat < op'.byte.toNat := by
  -- Neighbours are in order, so all are: far fewer comparisons than one for each pair.
  have h : (all.map fun op => op.byte.toNat).IsChain (· < ·) := by decide +kernel
  exact List.pairwise_map.1 (List.isChain_iff_pairwise.1 h)

private theorem find?_byte {ops : List Opcode}
    (hops : ops.Pairwise fun op op' => op.byte.toNat < op'.byte.toNat) {op : Opcode}
    (hop : op ∈ ops) : ops.find? (fun x => x.byte = op.byte) = some op := by
  induction ops with
  | nil => simp at hop
  | cons x xs ih =>
    obtain ⟨hx, hxs⟩ := List.pairwise_cons.1 hops
    rcases List.mem_cons.1 hop with rfl | hmem
    · simp
    · have hlt := hx op hmem
      have hne : x.byte ≠ op.byte := by
        intro h
        rw [h] at hlt
        omega
      rw [List.find?_cons_of_neg (by simpa using hne), ih hxs hmem]

theorem ofByte?_eq_some_iff {b : UInt8} {op : Opcode} : ofByte? b = some op ↔ op.byte = b :=
  find?_marker_eq_some_iff fun op => find?_byte pairwise_all (mem_all op)

end Opcode

namespace Instruction

/-- The byte of the opcode, and then the operands that it calls for. -/
inductive Encodes : Format Instruction
  | intro {bs : List UInt8} {i : Instruction} (operands : i.immediate.Encodes bs) :
    Encodes (i.opcode.byte :: bs) i

theorem Encodes.ne_nil {bs : List UInt8} {i : Instruction} (h : Encodes bs i) : bs ≠ [] := by
  cases h
  simp

theorem follows_decode : Follows E Encodes decode := by
  refine ((follows_marker _ _).bind fun opcode => (Immediate.follows_decode opcode.shape).bind
    fun immediate => follows_pure (Instruction.mk opcode immediate)).congr fun bs i => ?_
  constructor
  · intro h
    cases h with
    | @intro bs _ operands =>
      exact ⟨[i.opcode.byte], bs, i.opcode, rfl, ⟨_, rfl, Opcode.ofByte?_eq_some_iff.2 rfl⟩,
        bs, [], i.immediate, by simp, operands, rfl, rfl⟩
  · intro h
    obtain ⟨_, _, opcode, hbs, ⟨b, hb, hop⟩, bs₁, _, immediate, hbs', operands, hnil, hi⟩ := h
    obtain rfl := Opcode.ofByte?_eq_some_iff.1 hop
    rw [hbs, hb, hbs', hnil, hi, List.append_nil]
    exact Encodes.intro (i := ⟨opcode, immediate⟩) operands

end Instruction

namespace Expr

def openers (e : Expr) : Nat :=
  e.countP fun i => i.opcode.opensBlock

def ends (e : Expr) : Nat :=
  e.countP Instruction.isEnd

/-- Inside `depth` blocks, the expression ends with the first `end` that closes none of them and no
block of its own. -/
structure IsClosed (depth : Nat) (e : Expr) : Prop where
  ends_eq : ends e = openers e + depth + 1
  ends_le : ∀ p, p <+: e → p ≠ e → ends p ≤ openers p + depth

theorem openers_cons (i : Instruction) (e : Expr) : openers (i :: e) = openers [i] + openers e := by
  rw [← List.singleton_append]
  exact List.countP_append

theorem ends_cons (i : Instruction) (e : Expr) : ends (i :: e) = ends [i] + ends e := by
  rw [← List.singleton_append]
  exact List.countP_append

private theorem ends_singleton_of_opensBlock {i : Instruction} (h : i.opcode.opensBlock = true) :
    ends [i] = 0 := by
  have hne : i.opcode ≠ .endMark := by
    intro heq
    rw [heq] at h
    exact Bool.noConfusion h
  simp [ends, Instruction.isEnd, hne]

theorem depth_of_depthAfter?_eq_some {depth depth' : Nat} {i : Instruction}
    (h : i.depthAfter? depth = some depth') : ends [i] + depth' = openers [i] + depth := by
  unfold Instruction.depthAfter? at h
  split at h
  · next hopens =>
    have hends := ends_singleton_of_opensBlock hopens
    have hopeners : openers [i] = 1 := by simp [openers, hopens]
    have hdepth := Option.some.inj h
    omega
  · next hopens =>
    have hopeners : openers [i] = 0 := by simp [openers, hopens]
    split at h
    · next hend =>
      have hends : ends [i] = 1 := by simp [ends, hend]
      cases depth with
      | zero => simp at h
      | succ d =>
        have hdepth := Option.some.inj h
        omega
    · next hend =>
      have hends : ends [i] = 0 := by simp [ends, hend]
      have hdepth := Option.some.inj h
      omega

theorem depth_of_depthAfter?_eq_none {depth : Nat} {i : Instruction}
    (h : i.depthAfter? depth = none) : depth = 0 ∧ openers [i] = 0 ∧ ends [i] = 1 := by
  unfold Instruction.depthAfter? at h
  split at h
  · simp at h
  · next hopens =>
    split at h
    · next hend =>
      cases depth with
      | zero => exact ⟨rfl, by simp [openers, hopens], by simp [ends, hend]⟩
      | succ d => simp at h
    · simp at h

theorem isClosed_cons_iff {depth depth' : Nat} {i : Instruction} {e : Expr}
    (h : ends [i] + depth' = openers [i] + depth) :
    IsClosed depth (i :: e) ↔ IsClosed depth' e := by
  constructor
  · intro hcl
    have hends := hcl.ends_eq
    rw [ends_cons, openers_cons] at hends
    refine ⟨by omega, fun p hp hne => ?_⟩
    have hle := hcl.ends_le (i :: p) (List.cons_prefix_cons.2 ⟨rfl, hp⟩) (by simpa using hne)
    rw [ends_cons, openers_cons] at hle
    omega
  · intro hcl
    have hends := hcl.ends_eq
    refine ⟨by rw [ends_cons, openers_cons]; omega, fun p hp hne => ?_⟩
    cases p with
    | nil => exact Nat.zero_le _
    | cons j p =>
      obtain ⟨rfl, hp'⟩ := List.cons_prefix_cons.1 hp
      have hle := hcl.ends_le p hp' (by simpa using hne)
      rw [ends_cons, openers_cons]
      omega

theorem closes_iff {depth : Nat} {e : Expr} :
    Format.Closes Instruction.depthAfter? depth e ↔ IsClosed depth e := by
  induction e generalizing depth with
  | nil =>
    refine ⟨fun h => h.elim, fun h => ?_⟩
    have hends := h.ends_eq
    simp [ends, openers] at hends
  | cons i e ih =>
    rw [Format.Closes]
    cases h : i.depthAfter? depth with
    | some depth' => exact ih.trans (isClosed_cons_iff (depth_of_depthAfter?_eq_some h)).symm
    | none =>
      obtain ⟨hdepth, hopeners, hends⟩ := depth_of_depthAfter?_eq_none h
      constructor
      · intro he
        subst he
        refine ⟨by omega, fun p hp hne => ?_⟩
        have hnil : p = [] := by simpa [List.prefix_cons_iff, hne] using hp
        rw [hnil]
        exact Nat.zero_le _
      · intro hcl
        refine Decidable.byContradiction fun he => ?_
        -- Something follows, so the `end` alone is a proper part that already closes too much.
        have hle := hcl.ends_le [i] (List.cons_prefix_cons.2 ⟨rfl, List.nil_prefix⟩)
          (by simpa using Ne.symm he)
        omega

/-- Instructions up to the first `end` that closes no inner block. -/
def Encodes : Format Expr := fun bs e =>
  Format.Each Instruction.Encodes bs e ∧ IsClosed 0 e

theorem follows_decode : Follows E Encodes decode := by
  refine (follows_collectUntil _ Instruction.follows_decode _ 0).congr fun bs e => ?_
  rw [Encodes, closes_iff]

end Expr
end WasmBinary
