import WasmBinary.Proofs.Format.Instruction
import WasmBinary.Section.Decoder

/-! The formats of the items of a section and of a section with its framing. -/
namespace WasmBinary

open Decoder Leb128

variable {E : DecodeError → Prop}

inductive LocalGroup.Encodes : Format LocalGroup
  | intro {ns ts : List UInt8} {g : LocalGroup} (count : U32 ns g.count)
    (type : ValType.Encodes ts g.type) : Encodes (ns ++ ts) g

theorem LocalGroup.follows_decode : Follows E LocalGroup.Encodes LocalGroup.decode := by
  refine (follows_u32.pair ValType.follows_decode LocalGroup.mk).congr fun bs g => ?_
  constructor
  · intro h
    cases h with
    | intro count type => exact ⟨_, _, _, _, rfl, count, type, rfl⟩
  · intro h
    obtain ⟨ns, ts, n, t, hbs, count, type, hg⟩ := h
    rw [hbs, hg]
    exact .intro count type

namespace Body

/-- The local groups and then the instructions, in as many bytes as the body has. -/
inductive Holds : Format Body
  | intro {ls is : List UInt8} {body : Body}
    (locals : Format.Vector LocalGroup.Encodes ls body.locals)
    (instructions : Format.Each Instruction.Encodes is body.instructions)
    (size : (ls ++ is).length = body.size.toNat) : Holds (ls ++ is) body

inductive Encodes : Format Body
  | intro {ns bs : List UInt8} {body : Body} (size : U32 ns body.size) (content : Holds bs body) :
    Encodes (ns ++ bs) body

/-- The error of a body that does not take as many bytes as it declares. -/
def IsMismatch (e : DecodeError) : Prop :=
  e.within = none ∧ ∃ declared consumed, e.cause = .bodySizeMismatch declared consumed

/-- Whether another instruction of a body that began at `start` is to be read. -/
def hasMore (start : Nat) (declared : UInt32) (c : Cursor) : Bool :=
  c.position - start < declared.toNat && c.position < c.bound

def checkSize (start : Nat) (body : Body) : Decoder Body := do
  let consumed := (← position) - start
  if consumed = body.size.toNat then return body
  else failAt start (.bodySizeMismatch body.size consumed)

theorem decode_eq (declared : UInt32) : Body.decode declared = (do
    let start ← position
    let locals ← vector LocalGroup.decode
    let instructions ← collectWhile (hasMore start declared) Instruction.decode
      Instruction.advances_decode
    checkSize start ⟨declared, locals, instructions⟩) :=
  rfl

theorem checkSize_apply (start : Nat) (body : Body) (c : Cursor) : checkSize start body c =
    if c.position - start = body.size.toNat then .ok body c
    else .error ⟨.bodySizeMismatch body.size (c.position - start), start, none⟩ c := by
  rw [checkSize, bind_apply, Decoder.position]
  dsimp only
  split <;> rfl

/-- Instructions up to the end of a body are all read, unless the bound cuts them short. -/
private theorem collectWhile_instructions {start : Nat} {declared : UInt32} {is : List UInt8}
    {e : Expr} (his : Format.Each Instruction.Encodes is e) {c : Cursor} {rest : List UInt8}
    (hc : c.Honest) (hp : c.pending = is ++ rest) (hstart : start ≤ c.position)
    (hend : c.position + is.length = start + declared.toNat) :
    (∃ c', collectWhile (hasMore start declared) Instruction.decode Instruction.advances_decode c
        = .ok e c' ∧ c.Passes is c') ∨
      (c.bound < c.position + is.length ∧ ∃ e' c',
        collectWhile (hasMore start declared) Instruction.decode Instruction.advances_decode c
          = .ok e' c' ∧ start ≤ c'.position ∧ c'.position < start + declared.toNat) := by
  induction his generalizing c with
  | nil =>
    have hstop : hasMore start declared c = false := by
      have hpos : c.position = start + declared.toNat := hend
      simp [hasMore, hpos]
    refine .inl ⟨c, ?_, .refl c⟩
    rw [collectWhile_eq, if_neg (by simp [hstop])]
  | @cons is₁ is₂ i e head tail ih =>
    have hpos := List.length_pos_of_ne_nil head.ne_nil
    rw [List.append_assoc] at hp
    rw [List.length_append] at hend ⊢
    by_cases hbound : c.position < c.bound
    · obtain ⟨m, hm, hpm⟩ := (Instruction.follows_decode.complete head).succeeds hc hp
      have hmpos := hpm.position
      have hmbound := hpm.bound
      have hmore : hasMore start declared c = true := by
        simp only [hasMore, Bool.and_eq_true, decide_eq_true_eq]
        omega
      rw [collectWhile_eq, if_pos hmore, bind_apply, hm]
      dsimp only
      rw [map_apply]
      rcases ih (hpm.honest hc) (hpm.pending_eq hp) (by omega) (by omega) with
        ⟨c', hc', hpc⟩ | ⟨hlt, e', c', hc', hle, hlt'⟩
      · rw [hc']
        exact .inl ⟨c', rfl, hpm.trans hpc⟩
      · rw [hc']
        exact .inr ⟨by omega, i :: e', c', rfl, hle, hlt'⟩
    · have hstop : hasMore start declared c = false := by
        simp [hasMore, hbound]
      rw [collectWhile_eq, if_neg (by simp [hstop])]
      exact .inr ⟨by omega, [], c, rfl, by omega, by omega⟩

theorem follows_decode (hE : ∀ e, IsMismatch e → E e) (declared : UInt32) :
    Follows E (fun bs body => body.size = declared ∧ Holds bs body) (Body.decode declared) where
  sound c body c' h := by
    rw [decode_eq] at h
    obtain ⟨_, _, hstart, h⟩ := bind_ok h
    obtain ⟨rfl, rfl⟩ := EStateM.Result.ok.inj hstart
    obtain ⟨locals, m, hlocals, h⟩ := bind_ok h
    obtain ⟨ls, hpl, hl⟩ := (follows_vector (E := never) LocalGroup.follows_decode).sound hlocals
    obtain ⟨instructions, m', hinstructions, h⟩ := bind_ok h
    obtain ⟨is, hpi, hi⟩ := (steps_of_collectWhile hinstructions).1.each
      (Instruction.follows_decode (E := never)).sound
    have hpos := (hpl.trans hpi).position
    rw [checkSize_apply] at h
    split at h
    · next hsize =>
      obtain ⟨rfl, rfl⟩ := EStateM.Result.ok.inj h
      have hlen : (ls ++ is).length = declared.toNat := by
        dsimp only at hsize
        omega
      exact ⟨ls ++ is, hpl.trans hpi, rfl, .intro hl hi hlen⟩
    · simp at h
  complete bs body h := by
    intro c rest hc hp
    obtain ⟨rfl, hbody⟩ := h
    cases hbody with
    | @intro ls is _ hl hi hsize =>
      rw [List.append_assoc] at hp
      obtain ⟨m, hm, hpm⟩ :=
        ((follows_vector LocalGroup.follows_decode).complete hl).succeeds hc hp
      have hmpos := hpm.position
      have hmbound := hpm.bound
      rw [List.length_append] at hsize ⊢
      have hend : m.position + is.length = c.position + body.size.toNat := by omega
      rw [decode_eq, bind_apply, Decoder.position]
      dsimp only
      rw [bind_apply, hm]
      dsimp only
      rw [bind_apply]
      rcases collectWhile_instructions hi (hpm.honest hc) (hpm.pending_eq hp) (by omega) hend with
        ⟨c', hc', hpc⟩ | ⟨hlt, e', c', hc', hle, hlt'⟩
      · have hpos := hpc.position
        rw [hc']
        dsimp only
        rw [checkSize_apply, if_pos (by dsimp only; omega)]
        exact .inl ⟨c', rfl, hpm.trans hpc⟩
      · rw [hc']
        dsimp only
        rw [checkSize_apply, if_neg (by dsimp only; omega)]
        exact .inr ⟨by omega, _, c', rfl, hE _ ⟨rfl, _, _, rfl⟩⟩

theorem follows_decodeEntry (hE : ∀ e, IsMismatch e → E e) (index : Nat) :
    Follows E Encodes (Body.decodeEntry index) := by
  have hbody : ∀ size, Follows E (fun bs body => body.size = size ∧ Holds bs body) (do
      let offset ← position
      let body ← Body.decode size
      report (.body index offset body)
      return body) := by
    intro size
    refine .position fun offset => ?_
    refine ((follows_decode hE size).bind fun body =>
      (follows_pure body).report _).congr fun bs body => ?_
    constructor
    · intro h
      exact ⟨bs, [], body, by simp, h, rfl, rfl⟩
    · intro h
      obtain ⟨bs₁, bs₂, body', hbs, h, hnil, hbody⟩ := h
      rw [hbs, hnil, hbody, List.append_nil]
      exact h
  refine (follows_u32.bind hbody).congr fun bs body => ?_
  constructor
  · intro h
    cases h with
    | intro size content => exact ⟨_, _, _, rfl, size, rfl, content⟩
  · intro h
    obtain ⟨ns, bs, size, hbs, hn, hsize, content⟩ := h
    rw [hbs]
    exact .intro (hsize ▸ hn) content

end Body

inductive ExportTarget.Encodes : Format ExportTarget
  | function {bs : List UInt8} {i : FuncIdx} (index : Index.Encodes bs i) :
    Encodes (0x00 :: bs) (.function i)
  | memory {bs : List UInt8} {i : MemIdx} (index : Index.Encodes bs i) :
    Encodes (0x02 :: bs) (.memory i)

inductive Export.Encodes : Format Export
  | intro {ns ts : List UInt8} {x : Export} (name : Format.Name ns x.name)
    (target : ExportTarget.Encodes ts x.target) : Encodes (ns ++ ts) x

theorem ExportTarget.follows_marker : Follows E ExportTarget.Encodes (do
    let target ← marker ExportTarget.ofMarker? .unsupportedExportKind
    let index ← Leb128.u32
    return target index) := by
  refine ((Decoder.follows_marker ExportTarget.ofMarker? _).pair follows_u32 fun target index =>
    target index).congr fun bs t => ?_
  constructor
  · intro h
    cases h with
    | @function bs i index =>
      exact ⟨[0x00], bs, fun i => .function ⟨i⟩, i.value, rfl, ⟨0x00, rfl, rfl⟩, index, rfl⟩
    | @memory bs i index =>
      exact ⟨[0x02], bs, fun i => .memory ⟨i⟩, i.value, rfl, ⟨0x02, rfl, rfl⟩, index, rfl⟩
  · intro h
    obtain ⟨_, is, target, i, hbs, ⟨b, hb, htarget⟩, hi, ht⟩ := h
    rw [hbs, hb, ht]
    unfold ExportTarget.ofMarker? at htarget
    split at htarget
    · next hb0 =>
      rw [← Option.some.inj htarget, hb0]
      exact .function hi
    · split at htarget
      · next hb2 =>
        rw [← Option.some.inj htarget, hb2]
        exact .memory hi
      · simp at htarget

theorem Export.follows_decode : Follows E Export.Encodes Export.decode := by
  have h := follows_name.pair (E := E) ExportTarget.follows_marker Export.mk
  have heq : Export.decode = (do
      let name ← Decoder.name
      let target ← (do
        let target ← marker ExportTarget.ofMarker? .unsupportedExportKind
        let index ← Leb128.u32
        return target index)
      return ⟨name, target⟩) := by
    simp [Export.decode]
  rw [heq]
  refine h.congr fun bs x => ?_
  constructor
  · intro h
    cases h with
    | intro name target => exact ⟨_, _, _, _, rfl, name, target, rfl⟩
  · intro h
    obtain ⟨ns, ts, name, target, hbs, hname, htarget, hx⟩ := h
    rw [hbs, hx]
    exact .intro hname htarget

inductive DataSegment.Encodes : Format DataSegment
  | intro {ms os is : List UInt8} {s : DataSegment} (memory : Index.Encodes ms s.memory)
    (offset : Expr.Encodes os s.offset) (init : Format.ByteVector is s.init) :
    Encodes (ms ++ (os ++ is)) s

theorem DataSegment.follows_decode : Follows E DataSegment.Encodes DataSegment.decode := by
  refine (Index.follows_decode.bind fun memory => Expr.follows_decode.bind fun offset =>
    follows_byteVector.bind fun init =>
      (follows_pure (DataSegment.mk memory offset init)).report _).congr fun bs s => ?_
  constructor
  · intro h
    cases h with
    | intro memory offset init =>
      exact ⟨_, _, _, rfl, memory, _, _, _, rfl, offset, _, [], _, by simp, init, rfl, rfl⟩
  · intro h
    obtain ⟨ms, _, memory, hbs, hm, os, _, offset, hbs', ho, is, _, init, hbs'', hi, hnil, hs⟩ := h
    rw [hbs, hbs', hbs'', hnil, hs, List.append_nil]
    exact .intro hm ho hi

namespace Section

/-- A count and as many items of the section's kind. -/
def Items : Format Section := fun bs s =>
  match s with
  | .types items => Format.Vector FuncType.Encodes bs items
  | .functions items => Format.Vector Index.Encodes bs items
  | .memories items => Format.Vector Limits.Encodes bs items
  | .exports items => Format.Vector Export.Encodes bs items
  | .code items => Format.Vector Body.Encodes bs items
  | .data items => Format.Vector DataSegment.Encodes bs items

/-- Nothing, for a section without items, or the items with their count. -/
def Payload : Format Section := fun bs s =>
  (bs = [] ∧ s.isEmpty) ∨ Items bs s

def tag : Section → UInt8
  | .types _ => 1
  | .functions _ => 3
  | .memories _ => 5
  | .exports _ => 7
  | .code _ => 10
  | .data _ => 11

/-- The byte of the kind, the length of the payload and the payload. -/
inductive Encodes : Format Section
  | intro {ns bs : List UInt8} {s : Section} (size : Unsigned 32 ns bs.length)
    (payload : Payload bs s) : Encodes (s.tag :: (ns ++ bs)) s

theorem marker_id (s : Section) : s.id.marker = s.tag := by
  cases s <;> rfl

theorem isDecodable_id (s : Section) : s.id.isDecodable = true := by
  cases s <;> rfl

theorem Items.ne_nil {bs : List UInt8} {s : Section} (h : Items bs s) : bs ≠ [] := by
  have hvector : ∀ {α : Type} {G : Format α} {as : List α}, Format.Vector G bs as → bs ≠ [] := by
    intro α G as h
    cases h with
    | intro count items => simp [count.ne_nil]
  cases s <;> exact hvector h

/-- The errors that a section with this id may end in although its bytes are right, if they reach
past the bound. -/
def MayFail (id : SectionId) (e : DecodeError) : Prop :=
  id = .code ∧ Body.IsMismatch e

theorem follows_decodePayload (id : SectionId) :
    Follows (MayFail id) (fun bs s => s.id = id ∧ Items bs s) (decodePayload id) := by
  cases id with
  | types =>
    refine ((follows_vector FuncType.follows_decode).map Section.types).congr fun bs s => ?_
    cases s <;> simp [Section.id, Items, Format.map]
  | functions =>
    refine ((follows_vector Index.follows_decode).map Section.functions).congr fun bs s => ?_
    cases s <;> simp [Section.id, Items, Format.map]
  | memories =>
    refine ((follows_vector Limits.follows_decode).map Section.memories).congr fun bs s => ?_
    cases s <;> simp [Section.id, Items, Format.map]
  | exports =>
    refine ((follows_vector Export.follows_decode).map Section.exports).congr fun bs s => ?_
    cases s <;> simp [Section.id, Items, Format.map]
  | code =>
    have entry := Body.follows_decodeEntry (E := MayFail .code) fun e he => ⟨rfl, he⟩
    refine ((follows_indexedVector entry).map Section.code).congr fun bs s => ?_
    cases s <;> simp [Section.id, Items, Format.map]
  | data =>
    refine ((follows_vector DataSegment.follows_decode).map Section.data).congr fun bs s => ?_
    cases s <;> simp [Section.id, Items, Format.map]
  | _ =>
    refine (follows_fail _).congr fun bs s => ?_
    cases s <;> simp [Section.id]

theorem empty?_eq_some_iff {id : SectionId} {s : Section} :
    empty? id = some s ↔ s.id = id ∧ s.isEmpty = true := by
  constructor
  · intro h
    unfold empty? at h
    split at h
    all_goals first | (obtain rfl := Option.some.inj h; exact ⟨rfl, rfl⟩) | simp at h
  · intro h
    obtain ⟨hid, hempty⟩ := h
    subst hid
    have hsize : s.size = 0 := by simpa [isEmpty] using hempty
    cases s <;> (obtain rfl := List.eq_nil_of_length_eq_zero hsize; rfl)

private theorem empty?_id_ne_none (s : Section) : empty? s.id ≠ none := by
  cases s <;> simp [Section.id, empty?]

/-- A size of 0 stands for a section without items. -/
theorem follows_decodeSized (id : SectionId) (size : UInt32) : Follows (MayFail id)
    (fun bs s => s.id = id ∧ if size = 0 then bs = [] ∧ s.isEmpty = true else Items bs s)
    (decodeSized id size) := by
  unfold decodeSized
  cases hid : empty? id with
  | some s =>
    by_cases hsize : size = 0
    · simp only [if_pos hsize]
      refine (follows_pure s).congr fun bs s' => ?_
      have hs : s' = s ↔ s'.id = id ∧ s'.isEmpty = true := by
        rw [← empty?_eq_some_iff, hid, Option.some.injEq, eq_comm]
      rw [Format.pure, hs, and_left_comm]
    · simp only [if_neg hsize]
      exact follows_decodePayload id
  | none =>
    -- No section has such an id, so neither format holds of anything.
    have hne : ∀ s : Section, s.id ≠ id := by
      intro s hs
      exact empty?_id_ne_none s (hs ▸ hid)
    exact (follows_decodePayload id).congr fun bs s => by simp [hne s]

end Section
end WasmBinary
