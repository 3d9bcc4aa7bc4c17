import WasmBinary.Proofs.Log.Basic

/-! What is reported about a section, whether it is in order or not. -/
namespace WasmBinary

open Decoder Leb128

def Section.events (bs : List UInt8) (offset : Nat) : Section → List Event
  | .code bodies => Body.eventsFrom bs 0 (fieldEnd bs offset) bodies
  | .data segments => segments.map .segment
  | _ => []

/-- The events of a section: that its framing was read, and then those of its items. -/
def SectionEntry.events (bs : List UInt8) (e : SectionEntry) : List Event :=
  .framed e.header :: e.payload.events bs e.header.offset

/-- At the place `p` stand the id of a section that can be decoded and its size, as the header
says. -/
structure SectionHeader.FramedAt (bs : List UInt8) (p : Nat) (header : SectionHeader) : Prop where
  decodable : header.id.isDecodable = true
  framing : ∃ field rest, bs.drop p = header.id.marker :: (field ++ rest) ∧
    U32 field header.size ∧ header.offset = p + 1 + field.length

/-- In the payload of the section the count `n` has been read and then, one after the other, the
items, which end where the cursor stands. -/
structure SectionHeader.ReadUpTo {α : Type} (G : Format α) (d : Nat → Decoder α) (bs : List UInt8)
    (header : SectionHeader) (n : Nat) (items : List α) (c : Cursor) : Prop where
  encoded : ∃ count done rest, bs.drop header.offset = count ++ (done ++ rest) ∧
    Unsigned 32 count n ∧ Format.Each G done items ∧
    c.position = header.offset + (count ++ done).length
  decoded : ∃ start : Cursor, start.Reads bs ∧ start.bound = min header.stop bs.length ∧
    start.position = fieldEnd bs header.offset ∧ NumberedSteps d 0 start items c

/-- The items of a section that were read before its decoding fails with `e`: none if there is no
count, all of them if only the size of the section is wrong, and otherwise those before the first
one that fails. -/
inductive SectionHeader.ReadBefore {α : Type} (G : Format α) (d : Nat → Decoder α)
    (bs : List UInt8) (header : SectionHeader) (e : DecodeError) : List α → Prop
  | uncounted (none : ∀ count rest n, bs.drop header.offset = count ++ rest → ¬ U32 count n) :
    ReadBefore G d bs header e []
  | all {items : List α} {c : Cursor} (read : header.ReadUpTo G d bs items.length items c)
    (mismatch : e = ⟨.sectionSizeMismatch header.id header.size (c.position - header.offset),
      header.offset, some header.id⟩) : ReadBefore G d bs header e items
  | some {items : List α} {n : Nat} {e₀ : DecodeError} {c c' : Cursor}
    (read : header.ReadUpTo G d bs n items c) (fewer : items.length < n)
    (fails : d items.length c = .error e₀ c') (error : e = e₀.inSection header.id) :
    ReadBefore G d bs header e items

/-- The events of the items that were read before the decoding of the section fails. -/
inductive SectionHeader.ItemsBefore (bs : List UInt8) (header : SectionHeader) (e : DecodeError) :
    List Event → Prop
  | code {bodies : List Body} (id : header.id = .code)
    (read : header.ReadBefore Body.Encodes Body.decodeEntry bs e bodies) :
    ItemsBefore bs header e (Body.eventsFrom bs 0 (fieldEnd bs header.offset) bodies)
  | data {segments : List DataSegment} (id : header.id = .data)
    (read : header.ReadBefore DataSegment.Encodes (fun _ => DataSegment.decode) bs e segments) :
    ItemsBefore bs header e (segments.map .segment)
  | other (code : header.id ≠ .code) (data : header.id ≠ .data) : ItemsBefore bs header e []

/-- The events of the section at `p`, whose decoding fails with `e`. -/
inductive SectionEntry.FailsAt (bs : List UInt8) (p : Nat) (e : DecodeError) : List Event → Prop
  | unframed (none : ∀ header, ¬ SectionHeader.FramedAt bs p header) : FailsAt bs p e []
  | framed {header : SectionHeader} {events : List Event} (framing : header.FramedAt bs p)
    (items : header.ItemsBefore bs e events) : FailsAt bs p e (.framed header :: events)

/-! ### Items -/

namespace Decoder.Tells

variable {α : Type} {bs : List UInt8} {d : Nat → Decoder α} {G : Format α}
  {tell : (index p : Nat) → List α → List Event} {c c' : Cursor} {header : SectionHeader}
  {e : DecodeError}

theorem indexedVector_ok (ht : Tells bs d tell) (hc : c.Reads bs) {as : List α}
    (h : indexedVector d c = .ok as c') :
    c'.log.toList = c.log.toList ++ tell 0 (fieldEnd bs c.position) as := by
  obtain ⟨count, m, hcount, h⟩ := bind_ok h
  obtain ⟨-, hsteps⟩ := steps_of_timesFrom h
  obtain ⟨field, hp, hfield⟩ := (follows_u32 (E := never)).sound hcount
  have hend := hp.fieldEnd_eq hc hfield.delimited
  rw [ht.steps (hc.passes hp) hsteps, (silence.u32 c).of_ok hcount, hend]

theorem readUpTo_of_steps
    (hG : ∀ ⦃i c a c'⦄, d i c = .ok a c' → ∃ bs, c.Passes bs c' ∧ G bs a) (hc : c.Reads bs)
    (hpos : c.position = header.offset) (hbound : c.bound = min header.stop bs.length)
    {count : UInt32} {m : Cursor} (hcount : u32 c = .ok count m) {items : List α}
    (hsteps : NumberedSteps d 0 m items c') :
    header.ReadUpTo G d bs count.toNat items c' := by
  obtain ⟨field, hp, hfield⟩ := (follows_u32 (E := never)).sound hcount
  obtain ⟨done, hp', hdone⟩ := hsteps.each hG
  have hpass := hp.trans hp'
  have hend := hp.fieldEnd_eq hc hfield.delimited
  constructor
  · refine ⟨field, done, c'.pending, ?_, hfield, hdone, ?_⟩
    · rw [← hpos, ← hc.pending, hpass.pending, List.append_assoc]
    · rw [hpass.position, hpos]
  · exact ⟨m, hc.passes hp, hp.bound.trans hbound, hpos ▸ hend.symm, hsteps⟩

theorem indexedVector_error (ht : Tells bs d tell)
    (hG : ∀ ⦃i c a c'⦄, d i c = .ok a c' → ∃ bs, c.Passes bs c' ∧ G bs a) (hc : c.Reads bs)
    (hpos : c.position = header.offset) (hbound : c.bound = min header.stop bs.length)
    (h : indexedVector d c = .error e c') :
    ∃ items, header.ReadBefore G d bs (e.inSection header.id) items ∧
      c'.log.toList = c.log.toList ++ tell 0 (fieldEnd bs header.offset) items := by
  rcases bind_error h with h | ⟨count, m, hcount, h⟩
  · have hnone : ∀ count rest n, bs.drop header.offset = count ++ rest → ¬ U32 count n := by
      intro count rest n hdrop hn
      have hpending : c.pending = count ++ rest := by rw [hc.pending, hpos, hdrop]
      obtain ⟨m, hok, -⟩ := (follows_u32.complete hn).succeeds hc.honest hpending
      rw [h] at hok
      cases hok
    refine ⟨[], .uncounted hnone, ?_⟩
    rw [ht.nil, List.append_nil, (silence.u32 c).of_error h]
  · obtain ⟨items, m', hsteps, hfewer, herror⟩ := steps_of_timesFrom_error h
    obtain ⟨field, hp, hfield⟩ := (follows_u32 (E := never)).sound hcount
    have hend := hp.fieldEnd_eq hc hfield.delimited
    have hread := readUpTo_of_steps hG hc hpos hbound hcount hsteps
    rw [Nat.zero_add] at herror
    refine ⟨items, .some hread hfewer herror rfl, ?_⟩
    rw [ht.error herror, ht.steps (hc.passes hp) hsteps, (silence.u32 c).of_ok hcount, ← hpos, hend]

theorem readBefore_of_ok
    (hG : ∀ ⦃i c a c'⦄, d i c = .ok a c' → ∃ bs, c.Passes bs c' ∧ G bs a) (hc : c.Reads bs)
    (hpos : c.position = header.offset) (hbound : c.bound = min header.stop bs.length)
    {items : List α} (h : indexedVector d c = .ok items c') :
    header.ReadBefore G d bs ⟨.sectionSizeMismatch header.id header.size
      (c'.position - header.offset), header.offset, some header.id⟩ items := by
  obtain ⟨count, m, hcount, h⟩ := bind_ok h
  obtain ⟨hlen, hsteps⟩ := steps_of_timesFrom h
  have hread := readUpTo_of_steps hG hc hpos hbound hcount hsteps
  rw [← hlen] at hread
  exact .all hread rfl

end Decoder.Tells

/-! ### Payloads -/

theorem Body.sound_decodeEntry ⦃i : Nat⦄ ⦃c : Cursor⦄ ⦃body : Body⦄ ⦃c' : Cursor⦄
    (h : Body.decodeEntry i c = .ok body c') : ∃ bs, c.Passes bs c' ∧ Body.Encodes bs body :=
  (Body.follows_decodeEntry (E := fun _ => True) (fun _ _ => trivial) i).sound h

namespace Section

variable {bs : List UInt8} {p : Nat} {id : SectionId} {s : Section} {c c' : Cursor}
  {header : SectionHeader} {e : DecodeError}

theorem events_of_id_ne (hcode : s.id ≠ .code) (hdata : s.id ≠ .data) : s.events bs p = [] := by
  cases s with
  | code bodies => exact absurd rfl hcode
  | data segments => exact absurd rfl hdata
  | _ => rfl

theorem events_of_isEmpty (h : s.isEmpty = true) : s.events bs p = [] := by
  have hsize : s.size = 0 := by simpa [isEmpty] using h
  cases s with
  | code bodies =>
    obtain rfl := List.eq_nil_of_length_eq_zero hsize
    rfl
  | data segments =>
    obtain rfl := List.eq_nil_of_length_eq_zero hsize
    rfl
  | _ => rfl

theorem silent_decodePayload (hcode : id ≠ .code) (hdata : id ≠ .data) :
    Throughout SilentAt (decodePayload id) := by
  cases id with
  | types => exact silence.map (silence.vector silence.funcType) _
  | functions => exact silence.map (silence.vector silence.index) _
  | memories => exact silence.map (silence.vector silence.limits) _
  | exports => exact silence.map (silence.vector silence.exportItem) _
  | code => exact absurd rfl hcode
  | data => exact absurd rfl hdata
  | _ => exact silence.fail rfl

theorem log_of_decodePayload (hc : c.Reads bs) (h : decodePayload id c = .ok s c') :
    c'.log.toList = c.log.toList ++ s.events bs c.position := by
  by_cases hcode : id = .code
  · subst hcode
    obtain ⟨bodies, hbodies, rfl⟩ := map_ok h
    exact (Body.tells bs).indexedVector_ok hc hbodies
  by_cases hdata : id = .data
  · subst hdata
    obtain ⟨segments, hsegments, rfl⟩ := map_ok h
    exact (DataSegment.tells bs).indexedVector_ok hc hsegments
  have hlog := (silent_decodePayload hcode hdata c).of_ok h
  obtain ⟨_, -, rfl, -⟩ := (follows_decodePayload id).sound h
  rw [events_of_id_ne hcode hdata, List.append_nil, hlog]

theorem log_of_decodePayload_error (hc : c.Reads bs) (hpos : c.position = header.offset)
    (hbound : c.bound = min header.stop bs.length)
    (h : decodePayload header.id c = .error e c') :
    ∃ events, header.ItemsBefore bs (e.inSection header.id) events ∧
      c'.log.toList = c.log.toList ++ events := by
  by_cases hcode : header.id = .code
  · rw [hcode] at h
    obtain ⟨bodies, hread, hlog⟩ := (Body.tells bs).indexedVector_error Body.sound_decodeEntry hc
      hpos hbound (map_error.1 h)
    exact ⟨_, .code hcode hread, hlog⟩
  by_cases hdata : header.id = .data
  · rw [hdata] at h
    obtain ⟨segments, hread, hlog⟩ := (DataSegment.tells bs).indexedVector_error
      (fun _ => (DataSegment.follows_decode (E := never)).sound) hc hpos hbound (map_error.1 h)
    exact ⟨_, .data hdata hread, hlog⟩
  refine ⟨[], .other hcode hdata, ?_⟩
  rw [List.append_nil, (silent_decodePayload hcode hdata c).of_error h]

/-- All items of the section are read, and only then its size is found to be wrong. -/
theorem itemsBefore_of_decodePayload (hc : c.Reads bs) (hpos : c.position = header.offset)
    (hbound : c.bound = min header.stop bs.length) (h : decodePayload header.id c = .ok s c') :
    header.ItemsBefore bs ⟨.sectionSizeMismatch header.id header.size
      (c'.position - header.offset), header.offset, some header.id⟩
        (s.events bs header.offset) := by
  by_cases hcode : header.id = .code
  · rw [hcode] at h
    obtain ⟨bodies, hbodies, rfl⟩ := map_ok h
    exact .code hcode (Tells.readBefore_of_ok Body.sound_decodeEntry hc hpos hbound hbodies)
  by_cases hdata : header.id = .data
  · rw [hdata] at h
    obtain ⟨segments, hsegments, rfl⟩ := map_ok h
    exact .data hdata (Tells.readBefore_of_ok
      (fun _ => (DataSegment.follows_decode (E := never)).sound) hc hpos hbound hsegments)
  obtain ⟨_, -, hid, -⟩ := (follows_decodePayload header.id).sound h
  rw [← hid] at hcode hdata
  rw [events_of_id_ne hcode hdata]
  exact .other (hid ▸ hcode) (hid ▸ hdata)

private theorem decodeSized_cases (id : SectionId) (size : UInt32) :
    (size = 0 ∧ ∃ s, s.isEmpty = true ∧ decodeSized id size = pure s) ∨
      decodeSized id size = decodePayload id := by
  unfold decodeSized
  cases hempty : empty? id with
  | none => exact .inr rfl
  | some s =>
    by_cases hsize : size = 0
    · exact .inl ⟨hsize, s, (empty?_eq_some_iff.1 hempty).2, if_pos hsize⟩
    · exact .inr (if_neg hsize)

theorem log_of_decodeSized {size : UInt32} (hc : c.Reads bs)
    (h : decodeSized id size c = .ok s c') :
    c'.log.toList = c.log.toList ++ s.events bs c.position := by
  rcases decodeSized_cases id size with ⟨-, s', hempty, hpure⟩ | hpayload
  · rw [hpure] at h
    obtain ⟨rfl, rfl⟩ := EStateM.Result.ok.inj h
    rw [events_of_isEmpty hempty, List.append_nil]
  · rw [hpayload] at h
    exact log_of_decodePayload hc h

theorem log_of_decodeSized_error (header : SectionHeader) (hc : c.Reads bs)
    (hpos : c.position = header.offset) (hbound : c.bound = min header.stop bs.length)
    (h : decodeSized header.id header.size c = .error e c') :
    ∃ events, header.ItemsBefore bs (e.inSection header.id) events ∧
      c'.log.toList = c.log.toList ++ events := by
  rcases decodeSized_cases header.id header.size with ⟨-, s, -, hpure⟩ | hpayload
  · rw [hpure] at h
    cases h
  · rw [hpayload] at h
    exact log_of_decodePayload_error hc hpos hbound h

theorem itemsBefore_of_decodeSized (header : SectionHeader) (hc : c.Reads bs)
    (hpos : c.position = header.offset) (hbound : c.bound = min header.stop bs.length)
    (h : decodeSized header.id header.size c = .ok s c')
    (hne : c'.position - header.offset ≠ header.size.toNat) :
    header.ItemsBefore bs ⟨.sectionSizeMismatch header.id header.size
      (c'.position - header.offset), header.offset, some header.id⟩
        (s.events bs header.offset) := by
  rcases decodeSized_cases header.id header.size with ⟨hsize, s', -, hpure⟩ | hpayload
  · rw [hpure] at h
    obtain ⟨-, rfl⟩ := EStateM.Result.ok.inj h
    -- Nothing is read, as declared.
    rw [hpos, hsize, Nat.sub_self] at hne
    exact absurd rfl hne
  · rw [hpayload] at h
    exact itemsBefore_of_decodePayload hc hpos hbound h

end Section

/-! ### Sections with their framing -/

theorem Cursor.Reads.enter {bs : List UInt8} {c : Cursor} (hc : c.Reads bs)
    (header : SectionHeader) : (c.enter header).Reads bs :=
  hc.update _ _

namespace SectionHeader.FramedAt

variable {bs rest : List UInt8} {p : Nat} {b : UInt8} {header : SectionHeader}

private theorem ofMarker?_eq (h : header.FramedAt bs p) (hdrop : bs.drop p = b :: rest) :
    SectionId.ofMarker? b = some header.id := by
  obtain ⟨field, rest', hdrop', -⟩ := h.framing
  rw [hdrop] at hdrop'
  exact SectionId.ofMarker?_eq_some_iff.2 (List.cons.inj hdrop').1.symm

private theorem exists_field (h : header.FramedAt bs p) (hdrop : bs.drop p = b :: rest) :
    ∃ field rest', rest = field ++ rest' ∧ U32 field header.size := by
  obtain ⟨field, rest', hdrop', hfield, -⟩ := h.framing
  rw [hdrop] at hdrop'
  exact ⟨field, rest', (List.cons.inj hdrop').2, hfield⟩

end SectionHeader.FramedAt

namespace SectionEntry

variable {bs : List UInt8} {id : SectionId} {c c' : Cursor} {e : DecodeError}

private theorem log_enter (c : Cursor) (header : SectionHeader) :
    (c.enter header).log.toList = c.log.toList ++ [.framed header] := by
  rw [Cursor.enter, Array.toList_push]

theorem log_of_decodeAfter {entry : SectionEntry} (hc : c.Reads bs)
    (h : decodeAfter id c = .ok entry c') :
    c'.log.toList = c.log.toList ++ entry.events bs := by
  obtain ⟨size, m, hsize, -⟩ := bind_ok h
  obtain ⟨field, hp, -⟩ := (follows_u32 (E := never)).sound hsize
  rw [decodeAfter_apply id hsize] at h
  cases hs : Section.decodeSized id size (m.enter ⟨id, size, m.position⟩) with
  | error e m' =>
    rw [hs] at h
    cases h
  | ok s m' =>
    rw [hs] at h
    dsimp only at h
    split at h
    · obtain ⟨rfl, rfl⟩ := EStateM.Result.ok.inj h
      have hlog := Section.log_of_decodeSized ((hc.passes hp).enter _) hs
      rw [log_enter, (silence.u32 c).of_ok hsize, List.append_assoc] at hlog
      exact hlog
    · cases h

theorem log_of_decode {entry : SectionEntry} (hc : c.Reads bs) (h : decode c = .ok entry c') :
    c'.log.toList = c.log.toList ++ entry.events bs := by
  obtain ⟨id, m, hmarker, h⟩ := bind_ok h
  obtain ⟨_, hp, -⟩ := (follows_marker (E := never) _ _).sound hmarker
  have hlog := (silence.marker _ (fun _ => rfl) c).of_ok hmarker
  by_cases hid : id.isDecodable
  · rw [if_pos hid, inSection_apply] at h
    cases hafter : decodeAfter id m with
    | error e m' =>
      rw [hafter] at h
      cases h
    | ok entry' m' =>
      rw [hafter] at h
      obtain ⟨rfl, rfl⟩ := EStateM.Result.ok.inj h
      rw [log_of_decodeAfter (hc.passes hp) hafter, hlog]
  · rw [if_neg hid] at h
    cases h

theorem itemsBefore_of_decodeAfter {m : Cursor} {size : UInt32} (hc : c.Reads bs)
    (hsize : u32 c = .ok size m) (h : decodeAfter id c = .error e c') :
    ∃ events, SectionHeader.ItemsBefore bs ⟨id, size, m.position⟩ (e.inSection id) events ∧
      c'.log.toList = c.log.toList ++ .framed ⟨id, size, m.position⟩ :: events := by
  obtain ⟨field, hp, -⟩ := (follows_u32 (E := never)).sound hsize
  have hm := hc.passes hp
  have henter := hm.enter ⟨id, size, m.position⟩
  have hbound : (m.enter ⟨id, size, m.position⟩).bound =
      min (SectionHeader.stop ⟨id, size, m.position⟩) bs.length := by
    rw [← hm.totalSize]
    rfl
  have hlog : ∀ {m' : Cursor} {events : List Event},
      m'.log.toList = (m.enter ⟨id, size, m.position⟩).log.toList ++ events →
      m'.log.toList = c.log.toList ++ .framed ⟨id, size, m.position⟩ :: events := by
    intro m' events hevents
    rw [hevents, log_enter, (silence.u32 c).of_ok hsize, List.append_assoc]
    rfl
  rw [decodeAfter_apply id hsize] at h
  cases hs : Section.decodeSized id size (m.enter ⟨id, size, m.position⟩) with
  | error e₀ m' =>
    rw [hs] at h
    obtain ⟨rfl, rfl⟩ := EStateM.Result.error.inj h
    obtain ⟨events, hitems, hevents⟩ :=
      Section.log_of_decodeSized_error ⟨id, size, m.position⟩ henter rfl hbound hs
    exact ⟨events, hitems, hlog hevents⟩
  | ok s m' =>
    rw [hs] at h
    dsimp only at h
    split at h
    · cases h
    · next hne =>
      obtain ⟨rfl, rfl⟩ := EStateM.Result.error.inj h
      have hitems :=
        Section.itemsBefore_of_decodeSized ⟨id, size, m.position⟩ henter rfl hbound hs hne
      have hevents := Section.log_of_decodeSized henter hs
      exact ⟨_, hitems, hlog hevents⟩

/-- After the id of a section that can be decoded, all depends on whether its size can be read. -/
theorem failsAt_of_decodeAfter {m : Cursor} (hid : id.isDecodable = true) (hc : c.Reads bs)
    (hp : c.Passes [id.marker] m) (h : decodeAfter id m = .error e c') :
    ∃ events, FailsAt bs c.position (e.inSection id) events ∧
      c'.log.toList = m.log.toList ++ events := by
  have hm := hc.passes hp
  have hdrop : bs.drop c.position = id.marker :: m.pending := hc.pending.symm.trans hp.pending
  cases hsize : u32 m with
  | error e₁ m' =>
    refine ⟨[], .unframed fun header hframed => ?_, ?_⟩
    · obtain ⟨field, rest, hpending, hfield⟩ := hframed.exists_field hdrop
      obtain ⟨m₁, hok, -⟩ := (follows_u32.complete hfield).succeeds hm.honest hpending
      rw [hsize] at hok
      cases hok
    · rw [decodeAfter, bind_apply, hsize] at h
      obtain ⟨-, rfl⟩ := EStateM.Result.error.inj h
      rw [(silence.u32 m).of_error hsize, List.append_nil]
  | ok size m' =>
    obtain ⟨field, hpf, hfield⟩ := (follows_u32 (E := never)).sound hsize
    obtain ⟨events, hitems, hlog⟩ := itemsBefore_of_decodeAfter hm hsize h
    have hoffset : m'.position = c.position + 1 + field.length := by
      rw [hpf.position, hp.position, List.length_singleton]
    have hframed : SectionHeader.FramedAt bs c.position ⟨id, size, m'.position⟩ :=
      ⟨hid, field, m'.pending, by rw [hdrop, hpf.pending], hfield, hoffset⟩
    exact ⟨_, .framed hframed hitems, hlog⟩

theorem failsAt_of_decode (hc : c.Reads bs) (hne : c.pending ≠ [])
    (h : decode c = .error e c') :
    ∃ events, FailsAt bs c.position e events ∧ c'.log.toList = c.log.toList ++ events := by
  obtain ⟨b, rest, hp⟩ := List.exists_cons_of_ne_nil hne
  have hdrop : bs.drop c.position = b :: rest := hc.pending.symm.trans hp
  rw [decode, bind_apply] at h
  cases hid : SectionId.ofMarker? b with
  | none =>
    rw [marker_of_none hid _ hp] at h
    obtain ⟨-, rfl⟩ := EStateM.Result.error.inj h
    refine ⟨[], .unframed fun header hframed => ?_, by simp⟩
    rw [hframed.ofMarker?_eq hdrop] at hid
    cases hid
  | some id =>
    rw [marker_of_some hid _ hp] at h
    obtain ⟨e₀, h₀, rfl⟩ := inSection_error h
    by_cases hdecodable : id.isDecodable
    · rw [if_pos hdecodable] at h₀
      rw [← SectionId.ofMarker?_eq_some_iff.1 hid] at hp
      have hpass : c.Passes [id.marker] { c with pending := rest, position := c.position + 1 } :=
        Cursor.passes_of_pending hp
      obtain ⟨events, hfails, hlog⟩ := failsAt_of_decodeAfter hdecodable hc hpass h₀
      exact ⟨events, hfails, hlog⟩
    · rw [if_neg hdecodable] at h₀
      obtain ⟨-, rfl⟩ := EStateM.Result.error.inj h₀
      refine ⟨[], .unframed fun header hframed => ?_, by simp⟩
      have hsame : header.id = id :=
        Option.some.inj ((hframed.ofMarker?_eq hdrop).symm.trans hid)
      exact hdecodable (hsame ▸ hframed.decodable)

end SectionEntry
end WasmBinary
