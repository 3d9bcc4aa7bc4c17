import WasmBinary.Proofs.Diagnosis.Basic
import WasmBinary.Proofs.Format.Module

/-! All decoders explain their failures. -/
namespace WasmBinary

open Decoder

namespace Leb128

variable {bs before : List UInt8} {id : SectionId} {width start more : Nat} {b : UInt8} {c : Cursor}

/-- An integer that began at `start`: the cursor has read the bytes `before`, each of which has a
successor, and then `b`, which `more` bytes may follow. -/
structure Begun (bs : List UInt8) (width start : Nat) (before : List UInt8) (b : UInt8) (more : Nat)
    (c : Cursor) : Prop where
  reads : c.Reads bs
  bytes : bs.drop start = before ++ b :: c.pending
  continued : ∀ x ∈ before, 128 ≤ x.toNat
  length : before.length + 1 + more = maxBytes width

theorem Begun.start_lt (h : Begun bs width start before b more c) : start < c.position := by
  have hbytes := congrArg List.length h.bytes
  have hpending := congrArg List.length h.reads.pending
  have hpos := h.reads.position
  simp only [List.length_drop, List.length_append, List.length_cons] at hbytes hpending
  omega

theorem begun_of_passes {m : Cursor} (hc : c.Reads bs) (hp : c.Passes [b] m) (hw : 0 < width) :
    Begun bs width c.position [] b (moreBytes width) m where
  reads := hc.passes hp
  bytes := hc.pending.symm.trans hp.pending
  continued := by simp
  length := by
    rw [maxBytes, moreBytes, List.length_nil]
    omega

theorem Begun.next {b' : UInt8} {c' : Cursor}
    (h : Begun bs width start before b (more + 1) c) (hb : continues b)
    (hn : next width start c = .ok b' c') : Begun bs width start (before ++ [b]) b' more c' := by
  obtain ⟨_, hp, rfl⟩ := (follows_next (E := never) width start).sound hn
  refine ⟨h.reads.passes hp, ?_, ?_, ?_⟩
  · rw [h.bytes, hp.pending]
    simp
  · intro x hx
    rcases List.mem_append.1 hx with hx | hx
    · exact h.continued x hx
    · rw [List.mem_singleton.1 hx]
      exact continues_iff.1 hb
  · rw [List.length_append, List.length_singleton, ← h.length]
    omega

theorem explained_next (hc : c.Reads bs) (hstart : start ≤ c.position)
    (htrue : c.pending = [] →
      DecodeError.TrueOf bs ⟨.malformedInteger width .truncated, start, some id⟩) :
    Explained bs id start (next width start c) := by
  cases hp : c.pending with
  | nil =>
    have hcut : next width start c = failAt start (.malformedInteger width .truncated) c := by
      unfold next byte
      rw [hp, hc.stop]
      rfl
    rw [hcut]
    exact explained_failAt hc (Nat.le_refl _) hstart (htrue hp)
  | cons b rest =>
    have hsplit : c.pending = [b] ++ rest := hp
    obtain ⟨c', hok, hpass⟩ := ((follows_next width start).complete rfl).succeeds hc.honest hsplit
    have hpos := hpass.position
    rw [hok]
    exact ⟨hc.passes hpass, by omega⟩

theorem Begun.explained_next (h : Begun bs width start before b (more + 1) c) (hb : continues b) :
    Explained bs id start (Leb128.next width start c) := by
  refine Leb128.explained_next h.reads (Nat.le_of_lt h.start_lt) fun hnil => ⟨?_, ?_⟩
  · have hlen := h.length
    rw [h.bytes, hnil, List.length_append, List.length_singleton]
    omega
  · intro x hx
    rw [h.bytes, hnil] at hx
    rcases List.mem_append.1 hx with hx | hx
    · exact h.continued x hx
    · rw [List.mem_singleton.1 hx]
      exact continues_iff.1 hb

theorem Begun.explained_excess {α : Type} (h : Begun bs width start before b 0 c)
    {fault : IntegerFault} (hfault : fault ≠ .truncated) :
    Explained bs id start
      (failAt start (.malformedInteger width fault) c : EStateM.Result DecodeError Cursor α) := by
  have hlen : maxBytes width ≤ (bs.drop start).length := by
    rw [h.bytes, ← h.length, List.length_append, List.length_cons]
    omega
  have hcontinued : ∀ x ∈ (bs.drop start).take (maxBytes width - 1), 128 ≤ x.toNat := by
    intro x hx
    rw [h.bytes, ← h.length] at hx
    exact h.continued x (by simpa using hx)
  refine explained_failAt h.reads (Nat.le_refl _) (Nat.le_of_lt h.start_lt) ?_
  cases fault with
  | truncated => exact absurd rfl hfault
  | tooLong => exact ⟨hlen, hcontinued⟩
  | tooLarge => exact ⟨hlen, hcontinued⟩

theorem Begun.explained_pure {α : Type} (h : Begun bs width start before b more c) (a : α) :
    Explained bs id start ((pure a : Decoder α) c) :=
  ⟨h.reads, Nat.le_of_lt h.start_lt⟩

theorem explained_unsignedFrom {bits : Nat} (h : Begun bs width start before b more c)
    (hmore : more = moreBytes bits) :
    Explained bs id start (unsignedFrom width start more bits b c) := by
  unfold moreBytes at hmore
  induction more generalizing bits b before c with
  | zero =>
    unfold unsignedFrom
    split
    · exact h.explained_excess (by simp)
    · split
      · exact h.explained_pure _
      · exact h.explained_excess (by simp)
  | succ more ih =>
    -- Before the last byte no payload is too large.
    have hpow : 2 ^ bits = 128 * 2 ^ (bits - 7) := two_pow_eq_mul (by omega)
    have hpos : 0 < 2 ^ (bits - 7) := Nat.two_pow_pos _
    have hp := payload_lt b
    unfold unsignedFrom
    rw [if_neg (by omega)]
    split
    · exact h.explained_pure _
    · next hb =>
      have hcontinues : continues b = true := by simpa using hb
      refine explained_bind (h.explained_next hcontinues) fun b' m hb' _ _ => ?_
      refine explained_bind (ih (h.next hcontinues hb') (by omega)) fun n m' _ hm' hle' => ?_
      exact ⟨hm', hle'⟩

theorem explained_signedFrom {bits : Nat} (h : Begun bs width start before b more c)
    (hmore : more = moreBytes bits) :
    Explained bs id start (signedFrom width start more bits b c) := by
  unfold moreBytes at hmore
  induction more generalizing bits b before c with
  | zero =>
    unfold signedFrom
    split
    · split
      · exact h.explained_pure _
      · exact h.explained_excess (by simp)
    · exact h.explained_excess (by simp)
  | succ more ih =>
    unfold signedFrom
    split
    · rw [if_pos (signedPayload_mem (by omega) b)]
      exact h.explained_pure _
    · next hb =>
      have hcontinues : continues b = true := by simpa using hb
      refine explained_bind (h.explained_next hcontinues) fun b' m hb' _ _ => ?_
      refine explained_bind (ih (h.next hcontinues hb') (by omega)) fun n m' _ hm' hle' => ?_
      exact ⟨hm', hle'⟩

theorem explained_first (hc : c.Reads bs) (hw : 0 < width) :
    Explained bs id c.position (next width c.position c) := by
  refine explained_next hc (Nat.le_refl _) fun hnil => ⟨?_, ?_⟩
  · rw [← hc.pending, hnil, maxBytes, List.length_nil]
    omega
  · rw [← hc.pending, hnil]
    simp

theorem explains_unsigned (hw : 0 < width) : Explains bs id (unsigned width) := by
  intro c hc
  refine explained_position (explained_bind (explained_first hc hw) fun b m hb _ _ => ?_)
  obtain ⟨_, hp, rfl⟩ := (follows_next (E := never) width c.position).sound hb
  exact explained_unsignedFrom (begun_of_passes hc hp hw) rfl

theorem explains_signed (hw : 0 < width) : Explains bs id (signed width) := by
  intro c hc
  refine explained_position (explained_bind (explained_first hc hw) fun b m hb _ _ => ?_)
  obtain ⟨_, hp, rfl⟩ := (follows_next (E := never) width c.position).sound hb
  exact explained_signedFrom (begun_of_passes hc hp hw) rfl

theorem explains_u32 : Explains bs id u32 :=
  (explains_unsigned (by decide)).map _

end Leb128

open Leb128

section

variable {α : Type} {bs : List UInt8} {id : SectionId}

theorem explains_indexedVector {d : Nat → Decoder α} (hd : ∀ i, Explains bs id (d i)) :
    Explains bs id (indexedVector d) :=
  explains_u32.bind fun count => explains_times hd count.toNat

theorem explains_vector {d : Decoder α} (hd : Explains bs id d) : Explains bs id (vector d) :=
  explains_indexedVector fun _ => hd

theorem explains_byteVector : Explains bs id byteVector :=
  explains_u32.bind fun count => explains_read count.toNat

theorem explains_name : Explains bs id name := by
  intro c hc
  refine explained_position (explained_bind (explains_byteVector hc) fun x m hx hm hle => ?_)
  cases hdecode : Utf8.decode x with
  | ok s => exact ⟨hm, hle⟩
  | error fault =>
    obtain ⟨_, hp, hvector⟩ := (follows_byteVector (E := never)).sound hx
    cases hvector with
    | @intro field _ count =>
      have hinvalid : ∀ s, x ≠ Utf8.encoding s := by
        intro s hs
        rw [Utf8.decode_eq_ok_iff.2 hs] at hdecode
        simp at hdecode
      have hbytes : bs.drop c.position = field ++ (x ++ m.pending) := by
        rw [← hc.pending, hp.pending, List.append_assoc]
      exact explained_failAt hm (Nat.le_refl _) hle ⟨hinvalid, field, m.pending, hbytes, count⟩

theorem explains_valType : Explains bs id ValType.decode :=
  explains_marker _ .invalidValType fun _ _ h => h

theorem explains_funcType : Explains bs id FuncType.decode := by
  have types : Explains bs id (vector ValType.decode) := explains_vector explains_valType
  exact (explains_marker _ .invalidTypeMarker fun _ _ h => h).bind fun _ =>
    types.bind fun params => types.bind fun results => explains_pure _

theorem explains_limits : Explains bs id Limits.decode := by
  refine (explains_marker _ .invalidLimitKind fun _ _ h => h).bind fun hasMax =>
    explains_u32.bind fun min => ?_
  cases hasMax with
  | false => exact explains_pure _
  | true => exact explains_u32.bind fun max => explains_pure _

theorem explains_index {space : IndexSpace} :
    Explains bs id (Index.decode : Decoder (Index space)) :=
  explains_u32.map _

theorem explained_blockTypeAfter {offset : Nat} {b : UInt8} {c : Cursor}
    (h : Begun bs 33 offset [] b (moreBytes 33) c) :
    Explained bs id offset (BlockType.decodeAfter offset b c) := by
  have hb : bs[offset]? = some b := by
    rw [← List.head?_drop, h.bytes]
    rfl
  have hle := Nat.le_of_lt h.start_lt
  unfold BlockType.decodeAfter
  split
  · exact h.explained_pure _
  · split
    · cases ValType.ofMarker? b with
      | some t => exact h.explained_pure _
      | none => exact explained_failAt h.reads (Nat.le_refl _) hle hb
    · refine explained_bind (explained_signedFrom h rfl) fun index m _ hm hle' => ?_
      split
      · exact ⟨hm, hle'⟩
      · exact explained_failAt hm (Nat.le_refl _) hle' hb

theorem explains_blockType : Explains bs id BlockType.decode := by
  intro c hc
  refine explained_position (explained_bind (explains_byte hc) fun b m hb _ _ => ?_)
  exact explained_blockTypeAfter (begun_of_passes hc (getElem?_of_byte hc hb).1 (by decide))

theorem explains_immediate (s : Shape) : Explains bs id (Immediate.decode s) := by
  have index {space : IndexSpace} : Explains bs id (Index.decode : Decoder (Index space)) :=
    explains_index
  cases s with
  | none => exact explains_pure _
  | blockType => exact explains_blockType.map _
  | brTable =>
    exact (explains_vector index).bind fun _ => index.bind fun _ => explains_pure _
  | callIndirect => exact index.bind fun _ => index.bind fun _ => explains_pure _
  | selectTypes => exact (explains_vector explains_valType).map _
  | memArg => exact explains_u32.bind fun _ => explains_u32.bind fun _ => explains_pure _
  | i32 => exact ((explains_signed (by decide)).map _).map _
  | i64 => exact ((explains_signed (by decide)).map _).map _
  | f32 => exact (explains_bytes 4).bind fun _ => explains_pure _
  | f64 => exact (explains_bytes 8).bind fun _ => explains_pure _
  | refType => exact (explains_marker _ .invalidValType fun _ _ h => h).map _
  | _ => exact index.map _

theorem explains_instruction : Explains bs id Instruction.decode :=
  (explains_marker _ .unknownOpcode fun _ _ h => h).bind fun opcode =>
    (explains_immediate opcode.shape).bind fun _ => explains_pure _

theorem explains_expr : Explains bs id Expr.decode :=
  explains_collectUntil _ explains_instruction _ _

theorem explains_localGroup : Explains bs id LocalGroup.decode :=
  explains_u32.bind fun _ => explains_valType.bind fun _ => explains_pure _

theorem explains_export : Explains bs id Export.decode :=
  explains_name.bind fun _ => (explains_marker _ .unsupportedExportKind fun _ _ h => h).bind
    fun _ => explains_u32.bind fun _ => explains_pure _

theorem explains_dataSegment : Explains bs id DataSegment.decode :=
  explains_index.bind fun _ => explains_expr.bind fun _ => explains_byteVector.bind fun _ =>
    (explains_report _).bind fun _ => explains_pure _

/-- A size that has just been read stands right before the cursor. -/
theorem Cursor.Reads.sizeBefore {c m : Cursor} {mark field : List UInt8} {size : UInt32}
    (hc : c.Reads bs) (hp : c.Passes (mark ++ field) m) (hfield : U32 field size) :
    SizeBefore bs m.position mark size :=
  ⟨bs.take c.position, field, m.pending, hc.eq_append hp, hfield, hc.length_append hp⟩

theorem explained_body {declared : UInt32} {c : Cursor} (hc : c.Reads bs)
    (hsize : SizeBefore bs c.position [] declared) :
    Explained bs .code c.position (Body.decode declared c) := by
  rw [Body.decode_eq]
  refine explained_position ?_
  refine explained_bind (explains_vector explains_localGroup hc) fun locals m _ hm hle => ?_
  refine explained_bind ((explains_collectWhile _ explains_instruction _ hm).mono hle)
    fun instructions m' _ hm' hle' => ?_
  rw [Body.checkSize_apply]
  split
  · exact ⟨hm', hle'⟩
  · next hne => exact explained_failAt hm' (Nat.le_refl _) hle' ⟨rfl, Ne.symm hne, hsize⟩

theorem explains_bodyEntry (index : Nat) : Explains bs .code (Body.decodeEntry index) := by
  intro c hc
  refine explained_bind (explains_u32 hc) fun size m hsize hm hle => ?_
  obtain ⟨field, hp, hfield⟩ := (follows_u32 (E := never)).sound hsize
  have hp' : c.Passes ([] ++ field) m := hp
  have hbody := explained_body hm (hc.sizeBefore hp' hfield)
  refine explained_position (explained_bind (hbody.mono hle) fun body m' _ hm' hle' => ?_)
  exact ((explains_report _).bind (fun _ => explains_pure body) hm').mono hle'

theorem explained_payload {size : UInt32} {c : Cursor} (hc : c.Reads bs)
    (hid : id.isDecodable = true) (hsize : SizeBefore bs c.position [id.marker] size) :
    Explained bs id c.position (Section.decodePayload id c) := by
  cases id with
  | types => exact (explains_vector explains_funcType).map _ hc
  | functions => exact (explains_vector explains_index).map _ hc
  | memories => exact (explains_vector explains_limits).map _ hc
  | exports => exact (explains_vector explains_export).map _ hc
  | code => exact (explains_indexedVector explains_bodyEntry).map _ hc
  | data => exact (explains_vector explains_dataSegment).map _ hc
  | imports =>
    exact explained_failAt hc (Nat.le_refl _) (Nat.le_refl _) ⟨rfl, .inr ⟨rfl, size, hsize⟩⟩
  | _ => exact absurd hid (by decide)

theorem explained_sized {size : UInt32} {c : Cursor} (hc : c.Reads bs)
    (hid : id.isDecodable = true) (hsize : SizeBefore bs c.position [id.marker] size) :
    Explained bs id c.position (Section.decodeSized id size c) := by
  unfold Section.decodeSized
  cases Section.empty? id with
  | some s =>
    dsimp only
    split
    · exact explains_pure s hc
    · exact explained_payload hc hid hsize
  | none => exact explained_payload hc hid hsize

theorem explained_entryAfter {c₀ c : Cursor} (hc₀ : c₀.Reads bs) (hp : c₀.Passes [id.marker] c)
    (hid : id.isDecodable = true) :
    Explained bs id c.position (SectionEntry.decodeAfter id c) := by
  have hc := hc₀.passes hp
  have hu32 : Explained bs id c.position (u32 c) := explains_u32 hc
  cases hsize : u32 c with
  | error e c' =>
    rw [SectionEntry.decodeAfter, bind_apply, hsize]
    rw [hsize] at hu32
    exact hu32
  | ok size m =>
    rw [hsize] at hu32
    obtain ⟨hm, hle⟩ := hu32
    obtain ⟨field, hpf, hfield⟩ := (follows_u32 (E := never)).sound hsize
    have hbefore := hc₀.sizeBefore (hp.trans hpf) hfield
    have henter : (m.enter ⟨id, size, m.position⟩).Reads bs := hm.update _ _
    have hpayload := explained_sized henter hid hbefore
    rw [SectionEntry.decodeAfter_apply id hsize]
    cases hsized : Section.decodeSized id size (m.enter ⟨id, size, m.position⟩) with
    | error e c' =>
      rw [hsized] at hpayload
      exact ⟨hpayload.within, Nat.le_trans hle hpayload.lower, hpayload.upper, hpayload.trueOf⟩
    | ok s c' =>
      rw [hsized] at hpayload
      obtain ⟨hc', hle'⟩ := hpayload
      dsimp only
      split
      · exact ⟨hc'.update _ _, Nat.le_trans hle hle'⟩
      · next hne => exact ⟨rfl, hle, hm.position, rfl, Ne.symm hne, hbefore⟩

theorem marker_of_some {meaning? : UInt8 → Option α} {b : UInt8} {a : α}
    (ha : meaning? b = some a) (otherwise : UInt8 → Cause) {c : Cursor} {rest : List UInt8}
    (h : c.pending = b :: rest) : marker meaning? otherwise c =
      .ok a { c with pending := rest, position := c.position + 1 } := by
  unfold marker
  simp only [bind_apply, Decoder.position, byte, h, ha]
  rfl

theorem marker_of_none {meaning? : UInt8 → Option α} {b : UInt8} (hb : meaning? b = none)
    (otherwise : UInt8 → Cause) {c : Cursor} {rest : List UInt8} (h : c.pending = b :: rest) :
    marker meaning? otherwise c = .error ⟨otherwise b, c.position, none⟩
      { c with pending := rest, position := c.position + 1 } := by
  unfold marker
  simp only [bind_apply, Decoder.position, byte, h, hb]
  rfl

theorem inSection_error {d : Decoder α} {c c' : Cursor} {e : DecodeError}
    (h : inSection id d c = .error e c') : ∃ e₀, d c = .error e₀ c' ∧ e = e₀.inSection id := by
  unfold inSection at h
  split at h
  · simp at h
  · next e₀ m hd =>
    obtain ⟨rfl, rfl⟩ := EStateM.Result.error.inj h
    exact ⟨e₀, hd, rfl⟩

/-- A section that fails is refused for its id, or has an id, which its error is attributed to. -/
theorem SectionEntry.decode_eq_error {c c' : Cursor} {e : DecodeError} {b : UInt8}
    {rest : List UInt8} (hc : c.Reads bs) (hp : c.pending = b :: rest)
    (h : SectionEntry.decode c = .error e c') :
    (SectionId.ofMarker? b = none ∧ e = ⟨.unknownSectionId b, c.position, none⟩) ∨
      ∃ (id : SectionId) (e₀ : DecodeError), SectionId.ofMarker? b = some id ∧ e = e₀.inSection id ∧
        e₀.Fits bs id (c.position + 1) := by
  have hb := hc.getElem?_eq hp
  have hpass : c.Passes [b] { c with pending := rest, position := c.position + 1 } :=
    Cursor.passes_of_pending hp
  have hm := hc.passes hpass
  rw [SectionEntry.decode, bind_apply] at h
  cases hid : SectionId.ofMarker? b with
  | none =>
    rw [marker_of_none hid _ hp] at h
    exact .inl ⟨rfl, (EStateM.Result.error.inj h).1.symm⟩
  | some id =>
    rw [marker_of_some hid _ hp] at h
    obtain ⟨e₀, h₀, he⟩ := inSection_error h
    have hmarker : id.marker = b := SectionId.ofMarker?_eq_some_iff.1 hid
    refine .inr ⟨id, e₀, rfl, he, ?_⟩
    split at h₀
    · next hdecodable =>
      rw [← hmarker] at hpass
      have hafter := explained_entryAfter hc hpass hdecodable
      rw [h₀] at hafter
      exact hafter
    · next hdecodable =>
      obtain ⟨rfl, -⟩ := EStateM.Result.error.inj h₀
      have hunsupported : id.isDecodable = false := by simpa using hdecodable
      exact ⟨rfl, Nat.le_refl _, hm.position, rfl,
        .inl ⟨hunsupported, c.position, hmarker ▸ hb, rfl⟩⟩

end
end WasmBinary
