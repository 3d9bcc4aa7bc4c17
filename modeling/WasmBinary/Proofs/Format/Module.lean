import WasmBinary.Module.Decoder
import WasmBinary.Proofs.Format.Section

/-! The format of a module: the header, and then sections that stand one after the other. -/
namespace WasmBinary

open Decoder Leb128

theorem SectionId.ofMarker?_eq_some_iff {b : UInt8} {id : SectionId} :
    ofMarker? b = some id ↔ id.marker = b :=
  find?_marker_eq_some_iff fun id => by cases id <;> rfl

theorem Section.payload_iff {bs : List UInt8} {size : UInt32} (h : bs.length = size.toNat)
    {s : Section} :
    Payload bs s ↔ if size = 0 then bs = [] ∧ s.isEmpty = true else Items bs s := by
  by_cases hsize : size = 0
  · have hbs : bs = [] := List.eq_nil_of_length_eq_zero (by rw [h, hsize]; rfl)
    have hno : ¬ Items bs s := fun hitems => hitems.ne_nil hbs
    simp [Payload, hsize, hbs ▸ hno, hbs]
  · have hbs : bs ≠ [] := by
      intro hnil
      rw [hnil] at h
      exact hsize (UInt32.toNat_inj.1 h.symm)
    simp [Payload, hsize, hbs]

theorem Cursor.Honest.isAtEnd_iff {c : Cursor} (hc : c.Honest) :
    c.isAtEnd = true ↔ c.pending = [] := by
  unfold Honest at hc
  rw [isAtEnd, decide_eq_true_eq, ← List.length_eq_zero_iff]
  omega

/-- The cursor as it stands when the payload of a section begins. -/
def Cursor.enter (c : Cursor) (header : SectionHeader) : Cursor :=
  { c with bound := min (header.offset + header.size.toNat) c.totalSize
           log := c.log.push (.framed header) }

theorem Cursor.Passes.leave {c m : Cursor} {bs : List UInt8} {header : SectionHeader}
    (h : (c.enter header).Passes bs m) : c.Passes bs { m with bound := c.bound } :=
  ⟨h.pending, h.position, h.stop, h.totalSize, rfl⟩

namespace SectionEntry

/-- An entry whose id stands at the position `p`: the header says what stands where. -/
inductive EncodesAt (p : Nat) : Format SectionEntry
  | intro {ns bs : List UInt8} {e : SectionEntry} (id : e.header.id = e.payload.id)
    (size : U32 ns e.header.size) (offset : e.header.offset = p + 1 + ns.length)
    (length : bs.length = e.header.size.toNat) (payload : Section.Payload bs e.payload) :
    EncodesAt p (e.payload.tag :: (ns ++ bs)) e

theorem decodeAfter_apply (id : SectionId) {c m : Cursor} {size : UInt32}
    (h : u32 c = .ok size m) : decodeAfter id c =
      match Section.decodeSized id size (m.enter ⟨id, size, m.position⟩) with
      | .error e c' => .error e { c' with bound := m.bound }
      | .ok s c' =>
        if c'.position - m.position = size.toNat then
          .ok ⟨⟨id, size, m.position⟩, s⟩ { c' with bound := m.bound }
        else .error ⟨.sectionSizeMismatch id size (c'.position - m.position), m.position, none⟩
          { c' with bound := m.bound } := by
  unfold decodeAfter
  simp only [bind_apply, h, Decoder.position, report, withBound, Cursor.enter]
  generalize Section.decodeSized id size _ = result
  cases result with
  | error e c' => rfl
  | ok s c' =>
    dsimp only
    split <;> rfl

theorem decode_apply {id : SectionId} (hid : id.isDecodable = true) {c : Cursor}
    {rest : List UInt8} (h : c.pending = id.marker :: rest) : decode c =
      inSection id (decodeAfter id) { c with pending := rest, position := c.position + 1 } := by
  have hmarker : marker SectionId.ofMarker? .unknownSectionId c =
      .ok id { c with pending := rest, position := c.position + 1 } := by
    unfold marker
    simp only [bind_apply, Decoder.position, byte, h]
    rw [SectionId.ofMarker?_eq_some_iff.2 rfl]
    rfl
  rw [decode, bind_apply, hmarker]
  dsimp only
  rw [if_pos hid]

theorem decodeAfter_sound {id : SectionId} {c c' : Cursor} {e : SectionEntry}
    (h : decodeAfter id c = .ok e c') : ∃ ns bs, c.Passes (ns ++ bs) c' ∧ e.header.id = id ∧
      e.payload.id = id ∧ U32 ns e.header.size ∧ e.header.offset = c.position + ns.length ∧
      bs.length = e.header.size.toNat ∧ Section.Payload bs e.payload := by
  obtain ⟨size, m, hsize, -⟩ := bind_ok h
  obtain ⟨ns, hpn, hn⟩ := (follows_u32 (E := never)).sound hsize
  rw [decodeAfter_apply id hsize] at h
  split at h
  · simp at h
  · next s m' hs =>
    obtain ⟨bs, hpb, hid, hpayload⟩ := (Section.follows_decodeSized id size).sound hs
    have hpos : m'.position = m.position + bs.length := hpb.position
    split at h
    · next hlen =>
      obtain ⟨rfl, rfl⟩ := EStateM.Result.ok.inj h
      have hlength : bs.length = size.toNat := by omega
      exact ⟨ns, bs, hpn.trans hpb.leave, rfl, hid, hn, hpn.position, hlength,
        (Section.payload_iff hlength).2 hpayload⟩
    · simp at h

theorem decode_sound {c c' : Cursor} {e : SectionEntry} (h : decode c = .ok e c') :
    ∃ bs, c.Passes bs c' ∧ EncodesAt c.position bs e := by
  obtain ⟨id, m, hmarker, h⟩ := bind_ok h
  obtain ⟨_, hpm, b, rfl, hb⟩ := (follows_marker (E := never) _ _).sound hmarker
  unfold inSection at h
  split at h
  · next e m' hafter =>
    obtain ⟨rfl, rfl⟩ := EStateM.Result.ok.inj h
    split at hafter
    · obtain ⟨ns, bs, hp, hid, hid', hn, hoffset, hlength, hpayload⟩ := decodeAfter_sound hafter
      have htag : b = e.payload.tag := by
        rw [← SectionId.ofMarker?_eq_some_iff.1 hb, ← Section.marker_id, hid']
      have hpos : m.position = c.position + 1 := hpm.position
      refine ⟨b :: (ns ++ bs), hpm.trans hp, ?_⟩
      rw [htag]
      exact .intro (hid.trans hid'.symm) hn (hoffset.trans (by rw [hpos])) hlength hpayload
    · simp [fail] at hafter
  · simp at h

/-- Before a payload in order, whatever size is declared, all comes down to the length of the
payload, except that a bound set too early may cut off a body. -/
theorem decodeAfter_of_payload {c : Cursor} {ns bs rest : List UInt8} {size : UInt32} {s : Section}
    (hc : c.Honest) (hp : c.pending = ns ++ (bs ++ rest)) (hn : U32 ns size)
    (hs : if size = 0 then bs = [] ∧ s.isEmpty = true else Section.Items bs s) :
    (∃ c', c.Passes (ns ++ bs) c' ∧ decodeAfter s.id c =
      if bs.length = size.toNat then .ok ⟨⟨s.id, size, c.position + ns.length⟩, s⟩ c'
      else .error ⟨.sectionSizeMismatch s.id size bs.length, c.position + ns.length, none⟩ c') ∨
    (size.toNat < bs.length ∧
      ∃ e c', decodeAfter s.id c = .error e c' ∧ Section.MayFail s.id e) := by
  obtain ⟨m, hm, hpm⟩ := (follows_u32.complete hn).succeeds hc hp
  have hpending := hpm.pending_eq hp
  have htotal := (hpm.honest hc).length_le hpending
  rw [decodeAfter_apply s.id hm, ← hpm.position]
  obtain ⟨m', hm', hpm'⟩ | ⟨hlt, e, m', hm', he⟩ :=
    (Section.follows_decodeSized s.id size).complete ⟨rfl, hs⟩
      (c := m.enter ⟨s.id, size, m.position⟩) (hpm.honest hc) hpending
  · have hlen : m'.position - m.position = bs.length := by
      have hpos : m'.position = m.position + bs.length := hpm'.position
      omega
    rw [hm']
    refine .inl ⟨_, hpm.trans hpm'.leave, ?_⟩
    dsimp only
    rw [hlen]
  · have hbound : min (m.position + size.toNat) m.totalSize < m.position + bs.length := hlt
    rw [hm']
    exact .inr ⟨by omega, e, _, rfl, he⟩

theorem decode_complete {c : Cursor} {bs rest : List UInt8} {e : SectionEntry} (hc : c.Honest)
    (hp : c.pending = bs ++ rest) (h : EncodesAt c.position bs e) :
    ∃ c', decode c = .ok e c' ∧ c.Passes bs c' := by
  cases h with
  | @intro ns bs _ hid hn hoffset hlength hpayload =>
    have hp' : c.pending = e.payload.id.marker :: (ns ++ (bs ++ rest)) := by
      rw [hp, Section.marker_id]
      simp
    have hpm : c.Passes [e.payload.id.marker]
        { c with pending := ns ++ (bs ++ rest), position := c.position + 1 } :=
      Cursor.passes_of_pending hp'
    rw [decode_apply (Section.isDecodable_id e.payload) hp']
    obtain ⟨c', hpc, hc'⟩ | ⟨hlt, _⟩ := decodeAfter_of_payload (hpm.honest hc) rfl hn
      ((Section.payload_iff hlength).1 hpayload)
    · have he : e = ⟨⟨e.payload.id, e.header.size, c.position + 1 + ns.length⟩, e.payload⟩ := by
        rw [← hid, ← hoffset]
      have hpass := hpm.trans hpc
      rw [Section.marker_id] at hpass
      rw [inSection, hc', if_pos hlength]
      exact ⟨c', congrArg (EStateM.Result.ok · c') he.symm, hpass⟩
    · omega

theorem EncodesAt.unique {p : Nat} {bs bs' rest rest' : List UInt8} {e e' : SectionEntry}
    (h : EncodesAt p bs e) (h' : EncodesAt p bs' e') (heq : bs ++ rest = bs' ++ rest') :
    bs = bs' ∧ e = e' := by
  let c : Cursor := ⟨bs ++ rest, .endOfInput, p, p + (bs ++ rest).length, 0, #[]⟩
  have hc : c.Honest := rfl
  obtain ⟨m, hm, hp⟩ := decode_complete hc rfl h
  obtain ⟨m', hm', hp'⟩ := decode_complete hc heq h'
  obtain ⟨rfl, rfl⟩ := EStateM.Result.ok.inj (hm.symm.trans hm')
  exact ⟨List.append_cancel_right (hp.pending.symm.trans hp'.pending), rfl⟩

/-- Entries one after the other, the first one at the position `p`. -/
inductive Layout : Nat → Format (List SectionEntry)
  | nil (p : Nat) : Layout p [] []
  | cons {p : Nat} {bs cs : List UInt8} {e : SectionEntry} {es : List SectionEntry}
    (head : EncodesAt p bs e) (tail : Layout (p + bs.length) cs es) : Layout p (bs ++ cs) (e :: es)

theorem Layout.of_append {p : Nat} {bs cs : List UInt8} {es es' : List SectionEntry}
    (h : Layout p bs es) (h' : Layout p (bs ++ cs) es') :
    ∃ es₂, es' = es ++ es₂ ∧ Layout (p + bs.length) cs es₂ := by
  induction h generalizing es' with
  | nil p => exact ⟨es', rfl, h'⟩
  | @cons p bs₁ bs₂ e es head tail ih =>
    generalize hall : bs₁ ++ bs₂ ++ cs = all at h'
    cases h' with
    | nil =>
      cases head
      simp at hall
    | @cons _ bs₁' bs₂' e' es' head' tail' =>
      rw [List.append_assoc] at hall
      obtain ⟨rfl, rfl⟩ := head.unique head' hall
      rw [← List.append_cancel_left hall] at tail'
      obtain ⟨es₂, hes, hrest⟩ := ih tail'
      refine ⟨es₂, by rw [hes, List.cons_append], ?_⟩
      rwa [List.length_append, ← Nat.add_assoc]

theorem Layout.each {p : Nat} {bs : List UInt8} {es : List SectionEntry} (h : Layout p bs es) :
    Format.Each Section.Encodes bs (es.map (·.payload)) := by
  induction h with
  | nil p => exact .nil
  | cons head _ ih =>
    refine .cons ?_ ih
    cases head with
    | intro _ size _ length payload => exact .intro (length ▸ size) payload

private theorem exists_layout {bs : List UInt8} {ss : List Section}
    (h : Format.Each Section.Encodes bs ss) (p : Nat) :
    ∃ es, Layout p bs es ∧ es.map (·.payload) = ss := by
  induction h generalizing p with
  | nil => exact ⟨[], .nil p, rfl⟩
  | @cons bs cs s ss head _ ih =>
    obtain ⟨es, hes, hss⟩ := ih (p + bs.length)
    cases head with
    | @intro ns bs s size payload =>
      obtain ⟨n, hn, hlength⟩ := size.exists_u32
      have hentry := EncodesAt.intro (p := p) (e := ⟨⟨s.id, n, p + 1 + ns.length⟩, s⟩)
        rfl hn rfl hlength payload
      exact ⟨_, .cons hentry hes, congrArg (s :: ·) hss⟩

def decodeAll : Decoder (List SectionEntry) :=
  collectWhile (fun c => !c.isAtEnd) decode advances_decode

private theorem decodeAll_of_nil {c : Cursor} (hc : c.Honest) (h : c.pending = []) :
    decodeAll c = .ok [] c := by
  have hend := hc.isAtEnd_iff.2 h
  rw [decodeAll, collectWhile_eq, if_neg (by simp [hend])]

theorem decodeAll_of_ne_nil {c : Cursor} (hc : c.Honest) (h : c.pending ≠ []) :
    decodeAll c = (decode >>= fun e => (e :: ·) <$> decodeAll) c := by
  have hmore : (!c.isAtEnd) = true := by
    rw [Bool.not_eq_true', ← Bool.not_eq_true, hc.isAtEnd_iff]
    exact h
  rw [decodeAll, collectWhile_eq, if_pos hmore]

theorem EncodesAt.ne_nil {p : Nat} {bs : List UInt8} {e : SectionEntry} (h : EncodesAt p bs e) :
    bs ≠ [] := by
  cases h
  simp

theorem layout_of_steps {c c' : Cursor} {es : List SectionEntry} (h : Steps decode c es c') :
    ∃ bs, c.Passes bs c' ∧ Layout c.position bs es := by
  induction h with
  | nil c => exact ⟨[], .refl c, .nil _⟩
  | @cons c m c' e es head _ ih =>
    obtain ⟨bs, hp, he⟩ := decode_sound head
    obtain ⟨cs, hp', hes⟩ := ih
    rw [hp.position] at hes
    exact ⟨bs ++ cs, hp.trans hp', .cons he hes⟩

theorem decodeAll_append {p : Nat} {bs rest : List UInt8} {es : List SectionEntry}
    (h : Layout p bs es) {c : Cursor} (hc : c.Honest) (hp : c.pending = bs ++ rest)
    (hpos : c.position = p) :
    ∃ c', c.Passes bs c' ∧ decodeAll c = ((es ++ ·) <$> decodeAll) c' := by
  induction h generalizing c with
  | nil p => exact ⟨c, .refl c, by rw [map_apply]; cases decodeAll c <;> rfl⟩
  | @cons p bs cs e es head tail ih =>
    rw [List.append_assoc] at hp
    subst hpos
    obtain ⟨m, hm, hpm⟩ := decode_complete hc hp head
    obtain ⟨c', hpc, hc'⟩ := ih (hpm.honest hc) (hpm.pending_eq hp) hpm.position
    refine ⟨c', hpm.trans hpc, ?_⟩
    have hne : c.pending ≠ [] := by simp [hp, head.ne_nil]
    rw [decodeAll_of_ne_nil hc hne, bind_apply, hm]
    dsimp only
    rw [map_apply, hc', map_apply, map_apply]
    cases decodeAll c' <;> rfl

theorem decodeAll_eq_ok_iff {c : Cursor} (hc : c.Honest) {es : List SectionEntry} :
    (∃ c', decodeAll c = .ok es c') ↔ Layout c.position c.pending es := by
  constructor
  · intro h
    obtain ⟨c', h⟩ := h
    obtain ⟨hsteps, hmore⟩ := steps_of_collectWhile h
    obtain ⟨bs, hp, hes⟩ := layout_of_steps hsteps
    have hend : c'.isAtEnd = true := by simpa using hmore
    rw [hp.pending, (hp.honest hc).isAtEnd_iff.1 hend, List.append_nil]
    exact hes
  · intro h
    obtain ⟨c', hp, hc'⟩ := decodeAll_append h hc (List.append_nil _).symm rfl
    have hnil := hp.pending_eq (List.append_nil _).symm
    rw [hc', map_apply, decodeAll_of_nil (hp.honest hc) hnil]
    exact ⟨c', by simp⟩

end SectionEntry

namespace Module

/-- The eight bytes that every module begins with. -/
def header : List UInt8 :=
  magic ++ supportedVersion

/-- The cursor that has read the header and has the bytes `rest` before it. -/
def afterHeader (rest : List UInt8) : Cursor :=
  ⟨rest, .endOfInput, 8, rest.length + 8, rest.length + 8, #[]⟩

theorem honest_afterHeader (rest : List UInt8) : (afterHeader rest).Honest :=
  Nat.add_comm _ _

theorem ofBytes_eq (bs : List UInt8) : ofBytes bs =
    match Module.decode (.ofBytes bs) with
    | .ok m _ => .ok m
    | .error e _ => .error e := by
  rw [ofBytes, ofStream, runOn, Cursor.ofStream_ofBytes]
  dsimp only
  cases Module.decode (.ofBytes bs) <;> rfl

theorem ofBytes_eq_error_iff {bs : List UInt8} {e : DecodeError} :
    ofBytes bs = .error e ↔ ∃ c, Module.decode (.ofBytes bs) = .error e c := by
  rw [ofBytes_eq]
  cases Module.decode (.ofBytes bs) <;> simp

theorem length_header_append (rest : List UInt8) : (header ++ rest).length = 8 + rest.length := by
  rw [List.length_append]
  rfl

theorem follows_expected {α β : Type} {E : DecodeError → Prop} {G : Format α}
    (expected : List UInt8) {offset : Nat} {cause : List UInt8 → Cause}
    {k : List UInt8 → β → Decoder α} {rest : List UInt8 → Decoder α}
    (h : Follows E G (rest expected)) :
    Follows E (fun bs a => ∃ cs, bs = expected ++ cs ∧ G cs a)
      (bytes expected.length >>= fun found =>
        if found ≠ expected then failAt offset (cause found) >>= k found else rest found) := by
  have hrest : ∀ found, Follows E (fun cs a => found = expected ∧ G cs a)
      (if found ≠ expected then failAt offset (cause found) >>= k found else rest found) := by
    intro found
    by_cases hfound : found = expected
    · rw [if_neg (not_not_intro hfound), hfound]
      exact h.congr fun cs a => by simp
    · rw [if_pos hfound]
      exact ⟨fun c a c' hd => (nomatch hd), fun cs a hG => absurd hG.1 hfound⟩
  refine ((follows_bytes expected.length).bind hrest).congr fun bs a => ?_
  constructor
  · intro h
    obtain ⟨cs, hbs, hG⟩ := h
    exact ⟨expected, cs, expected, hbs, ⟨rfl, rfl⟩, rfl, hG⟩
  · intro h
    obtain ⟨bs₁, cs, found, hbs, ⟨hfound, _⟩, heq, hG⟩ := h
    exact ⟨cs, by rw [hbs, hfound, heq], hG⟩

theorem follows_decodeHeader :
    Follows never (fun bs version => bs = header ∧ version = 1) decodeHeader := by
  have h : Follows never (fun bs version => ∃ cs, bs = magic ++ cs ∧
      ∃ ds, cs = supportedVersion ++ ds ∧ Format.pure 1 ds version) decodeHeader := by
    refine follows_expected magic ?_
    exact follows_expected supportedVersion (follows_pure _)
  refine h.congr fun bs version => ?_
  constructor
  · intro h
    obtain ⟨hbs, hversion⟩ := h
    exact ⟨supportedVersion, hbs, [], by simp, rfl, hversion⟩
  · intro h
    obtain ⟨cs, hbs, ds, hcs, hnil, hversion⟩ := h
    rw [hbs, hcs, hnil, List.append_nil]
    exact ⟨rfl, hversion⟩

theorem decodeHeader_header_append (rest : List UInt8) :
    decodeHeader (.ofBytes (header ++ rest)) = .ok 1 (afterHeader rest) := by
  have hmagic : 4 = magic.length := rfl
  have hversion : magic.length = supportedVersion.length := rfl
  rw [decodeHeader, bind_apply, hmagic, bytes_eq_ok (List.append_assoc _ _ _)]
  dsimp only
  rw [if_neg (by simp), bind_apply, hversion, bytes_eq_ok rfl]
  rfl

theorem ofBytes_header_append (rest : List UInt8) : ofBytes (header ++ rest) =
    match SectionEntry.decodeAll (afterHeader rest) with
    | .ok es _ => .ok ⟨1, es⟩
    | .error e _ => .error e := by
  rw [ofBytes_eq, Module.decode, bind_apply, decodeHeader_header_append]
  dsimp only
  rw [bind_apply, ← SectionEntry.decodeAll]
  cases SectionEntry.decodeAll (afterHeader rest) with
  | ok es c' => rfl
  | error e c' => rfl

/-- Whatever size the stream seemed to have, a module that was decoded stands there in full, and the
run has come to the seeming end. -/
theorem decode_sound {c c' : Cursor} {m : Module} (hpos : c.position = 0)
    (h : Module.decode c = .ok m c') : m.version = 1 ∧ c'.isAtEnd = true ∧
      ∃ rest, c.Passes (header ++ rest) c' ∧ SectionEntry.Layout 8 rest m.entries := by
  obtain ⟨version, c₁, hheader, h⟩ := bind_ok h
  obtain ⟨_, hp₁, rfl, hversion⟩ := follows_decodeHeader.sound hheader
  obtain ⟨es, c₂, hentries, h⟩ := bind_ok h
  obtain ⟨hsteps, hmore⟩ := steps_of_collectWhile hentries
  obtain ⟨rest, hp₂, hlayout⟩ := SectionEntry.layout_of_steps hsteps
  have height : c₁.position = 8 := by
    rw [hp₁.position, hpos]
    rfl
  have hend : c₂.isAtEnd = true := by simpa using hmore
  have hp := hp₁.trans hp₂
  rw [height] at hlayout
  -- What follows the entries only reports the end of the run.
  obtain ⟨rfl, rfl⟩ := EStateM.Result.ok.inj h
  exact ⟨hversion, hend, rest, ⟨hp.pending, hp.position, hp.stop, hp.totalSize, hp.bound⟩, hlayout⟩

/-- However the stream stops, a module that fills it is decoded. -/
theorem decode_complete {c : Cursor} (hc : c.Honest) (hpos : c.position = 0) {rest : List UInt8}
    {es : List SectionEntry} (hp : c.pending = header ++ rest)
    (h : SectionEntry.Layout 8 rest es) : ∃ c', Module.decode c = .ok ⟨1, es⟩ c' := by
  obtain ⟨c₁, hheader, hp₁⟩ := (follows_decodeHeader.complete ⟨rfl, rfl⟩).succeeds hc hp
  have hlayout : SectionEntry.Layout c₁.position c₁.pending es := by
    rw [hp₁.position, hpos, hp₁.pending_eq hp]
    exact h
  obtain ⟨c₂, hentries⟩ := (SectionEntry.decodeAll_eq_ok_iff (hp₁.honest hc)).2 hlayout
  rw [Module.decode, bind_apply, hheader]
  dsimp only
  rw [bind_apply, ← SectionEntry.decodeAll, hentries]
  exact ⟨_, rfl⟩

theorem ofBytes_eq_ok_iff {bs : List UInt8} {m : Module} : ofBytes bs = .ok m ↔
    m.version = 1 ∧ ∃ rest, bs = header ++ rest ∧ SectionEntry.Layout 8 rest m.entries := by
  have hhonest : (Cursor.ofBytes bs).Honest := Nat.zero_add _
  rw [ofBytes_eq]
  constructor
  · intro h
    cases hd : Module.decode (.ofBytes bs) with
    | ok m' c' =>
      rw [hd] at h
      obtain rfl := Except.ok.inj h
      obtain ⟨hversion, hend, rest, hp, hlayout⟩ := decode_sound rfl hd
      have hbs : bs = header ++ rest ++ c'.pending := hp.pending
      rw [(hp.honest hhonest).isAtEnd_iff.1 hend, List.append_nil] at hbs
      exact ⟨hversion, rest, hbs, hlayout⟩
    | error e c' =>
      rw [hd] at h
      cases h
  · intro h
    obtain ⟨hversion, rest, hbs, hlayout⟩ := h
    obtain ⟨c', hd⟩ := decode_complete hhonest rfl hbs hlayout
    rw [hd, ← hversion]

/-- Exactly the bytes of the format are accepted, and the module is the one that they encode. -/
theorem ofBytes_eq_ok_iff_each_encodes (bs : List UInt8) (version : UInt32)
    (sections : List Section) :
    (∃ m, ofBytes bs = .ok m ∧ m.version = version ∧ m.sections = sections) ↔
      version = 1 ∧ ∃ rest, bs = [0x00, 0x61, 0x73, 0x6D, 0x01, 0x00, 0x00, 0x00] ++ rest ∧
        Format.Each Section.Encodes rest sections := by
  constructor
  · intro h
    obtain ⟨m, hm, hversion, hsections⟩ := h
    obtain ⟨hone, rest, hbs, hlayout⟩ := ofBytes_eq_ok_iff.1 hm
    exact ⟨hversion ▸ hone, rest, hbs, hsections ▸ hlayout.each⟩
  · intro h
    obtain ⟨hversion, rest, hbs, hrest⟩ := h
    obtain ⟨es, hlayout, hsections⟩ := SectionEntry.exists_layout hrest 8
    exact ⟨⟨version, es⟩, ofBytes_eq_ok_iff.2 ⟨hversion, rest, hbs, hlayout⟩, rfl, hsections⟩

end Module
end WasmBinary
