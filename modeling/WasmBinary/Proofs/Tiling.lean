import WasmBinary.Proofs.Format.Module

/-! Where the sections of a decoded module stand: they tile the bytes after the header, and the
bodies of a code section tile its payload. -/
namespace WasmBinary

open Leb128

def SectionHeader.stop (h : SectionHeader) : Nat :=
  h.offset + h.size.toNat

/-- The places where a section may begin: after the eight bytes of the header, and after each
section. -/
def Module.boundaries (m : Module) : List Nat :=
  8 :: m.headers.map SectionHeader.stop

def Body.Framed : Format Body := fun bs body =>
  ∃ field content, bs = field ++ content ∧ U32 field body.size ∧
    content.length = body.size.toNat ∧ Body.Holds content body

theorem Body.Encodes.framed {bs : List UInt8} {body : Body} (h : Body.Encodes bs body) :
    Body.Framed bs body := by
  cases h with
  | @intro field content _ hsize hcontent =>
    have hlen : content.length = body.size.toNat := by
      cases hcontent with
      | intro _ _ size => exact size
    exact ⟨field, content, rfl, hsize, hlen, hcontent⟩

namespace SectionEntry

theorem EncodesAt.stop_eq {p : Nat} {bs : List UInt8} {e : SectionEntry} (h : EncodesAt p bs e) :
    e.header.stop = p + bs.length := by
  cases h with
  | intro _ _ offset length _ =>
    rw [SectionHeader.stop, offset, ← length, List.length_cons, List.length_append]
    omega

theorem Layout.splitAt {p : Nat} {bs : List UInt8} {es : List SectionEntry} (h : Layout p bs es)
    {i : Nat} (hi : i ≤ es.length) : ∃ bs₁ bs₂, bs = bs₁ ++ bs₂ ∧ Layout p bs₁ (es.take i) ∧
      Layout (p + bs₁.length) bs₂ (es.drop i) ∧
      (p :: es.map (·.header.stop))[i]? = some (p + bs₁.length) := by
  induction h generalizing i with
  | nil p =>
    have hzero : i = 0 := Nat.le_zero.1 hi
    subst hzero
    exact ⟨[], [], rfl, .nil p, .nil p, rfl⟩
  | @cons p bs cs e es head tail ih =>
    cases i with
    | zero => exact ⟨[], bs ++ cs, rfl, .nil p, .cons head tail, rfl⟩
    | succ i =>
      obtain ⟨bs₁, bs₂, hcs, htake, hdrop, hboundary⟩ := ih (Nat.le_of_succ_le_succ hi)
      have hlen : p + (bs ++ bs₁).length = p + bs.length + bs₁.length := by
        rw [List.length_append, Nat.add_assoc]
      refine ⟨bs ++ bs₁, bs₂, by rw [hcs, List.append_assoc], .cons head htake, ?_, ?_⟩
      · rw [hlen]
        exact hdrop
      · rw [hlen, ← hboundary, List.map_cons, head.stop_eq, List.getElem?_cons_succ]

end SectionEntry

namespace Module

theorem boundaries_eq (m : Module) : m.boundaries = 8 :: m.entries.map (·.header.stop) := by
  simp [boundaries, headers]

theorem exists_entry_at {rest : List UInt8} {m : Module}
    (h : SectionEntry.Layout 8 rest m.entries) {i : Nat} {e : SectionEntry}
    (hi : m.entries[i]? = some e) : ∃ bs₁ bs₂ bs₃, rest = bs₁ ++ (bs₂ ++ bs₃) ∧
      SectionEntry.Layout 8 bs₁ (m.entries.take i) ∧ SectionEntry.EncodesAt (8 + bs₁.length) bs₂ e ∧
      m.boundaries[i]? = some (8 + bs₁.length) := by
  obtain ⟨hlt, he⟩ := List.getElem?_eq_some_iff.1 hi
  obtain ⟨bs₁, bs₂, hrest, htake, hdrop, hboundary⟩ := h.splitAt (Nat.le_of_lt hlt)
  rw [List.drop_eq_getElem_cons hlt, he] at hdrop
  rw [← boundaries_eq] at hboundary
  cases hdrop with
  | @cons _ bs₂ bs₃ _ _ head _ => exact ⟨bs₁, bs₂, bs₃, hrest, htake, head, hboundary⟩

theorem getLast?_boundaries {rest : List UInt8} {m : Module}
    (h : SectionEntry.Layout 8 rest m.entries) :
    m.boundaries.getLast? = some (8 + rest.length) := by
  obtain ⟨bs₁, bs₂, hrest, -, hdrop, hboundary⟩ := h.splitAt (Nat.le_refl _)
  rw [List.drop_length] at hdrop
  cases hdrop
  rw [hrest, List.append_nil, ← hboundary, ← boundaries_eq, List.getLast?_eq_getElem?]
  congr 1
  simp [boundaries_eq]

theorem bodies_tile {payload : List UInt8} {bodies : List Body}
    (h : Section.Payload payload (.code bodies)) (hne : payload ≠ []) :
    ∃ count rest, payload = count ++ rest ∧ Unsigned 32 count bodies.length ∧
      Format.Each Body.Framed rest bodies := by
  rcases h with ⟨hnil, -⟩ | hitems
  · exact absurd hnil hne
  · cases (hitems : Format.Vector Body.Encodes payload bodies) with
    | @intro count rest _ hcount hbodies =>
      exact ⟨count, rest, rfl, hcount, hbodies.imp fun _ _ hbody => hbody.framed⟩

private theorem entries_getElem?_eq {m : Module} {i : Nat} {header : SectionHeader} {s : Section}
    (hheader : m.headers[i]? = some header) (hs : m.sections[i]? = some s) :
    m.entries[i]? = some ⟨header, s⟩ := by
  rw [headers, List.getElem?_map] at hheader
  rw [sections, List.getElem?_map] at hs
  cases he : m.entries[i]? with
  | none => simp [he] at hheader
  | some e =>
    rw [he] at hheader hs
    rw [← Option.some.inj hheader, ← Option.some.inj hs]

/-- The sections of a decoded module tile its bytes: each stands at its boundary, as an id, a size
and a payload of that size, and the last boundary is the end. The bodies of a code section tile its
payload. -/
theorem sections_tile {bs : List UInt8} {m : Module} (hm : ofBytes bs = .ok m) :
    m.headers.length = m.sections.length ∧ m.boundaries.getLast? = some bs.length ∧
    ∀ (i : Nat) (header : SectionHeader) (s : Section),
      m.headers[i]? = some header → m.sections[i]? = some s →
      header.id = s.id ∧ ∃ before field payload after,
        bs = before ++ header.id.marker :: (field ++ (payload ++ after)) ∧
        m.boundaries[i]? = some before.length ∧ U32 field header.size ∧
        before.length + 1 + field.length = header.offset ∧
        payload.length = header.size.toNat ∧
        ∀ bodies, s = .code bodies → payload ≠ [] → ∃ count rest, payload = count ++ rest ∧
          Unsigned 32 count bodies.length ∧ Format.Each Body.Framed rest bodies := by
  obtain ⟨-, rest, hbs, hlayout⟩ := ofBytes_eq_ok_iff.1 hm
  have hlength : bs.length = 8 + rest.length := by
    rw [hbs, List.length_append]
    rfl
  have hlast := getLast?_boundaries hlayout
  rw [← hlength] at hlast
  refine ⟨by simp [headers, sections], hlast, fun i header s hheader hs => ?_⟩
  have hentry := entries_getElem?_eq hheader hs
  obtain ⟨bs₁, bs₂, bs₃, hrest, -, hencodes, hboundary⟩ := exists_entry_at hlayout hentry
  cases hencodes with
  | @intro field payload _ hid hsize hoffset hlen hpayload =>
    have hmarker : s.tag = header.id.marker := by
      rw [← Section.marker_id, ← hid]
    refine ⟨hid, Module.header ++ bs₁, field, payload, bs₃, ?_, ?_, hsize, ?_, hlen, ?_⟩
    · rw [hbs, hrest, ← hmarker]
      simp
    · rw [hboundary, List.length_append]
      rfl
    · rw [List.length_append]
      exact hoffset.symm
    · intro bodies hs' hne
      subst hs'
      exact bodies_tile hpayload hne

/-- A type section and a code section of two bodies, its size padded to two bytes. -/
theorem sections_tile_types_code : ∃ before field payload after,
    [0, 97, 115, 109, 1, 0, 0, 0, 1, 4, 1, 0x60, 0, 0, 10, 0x87, 0, 2, 2, 0, 0x0B, 2, 0, 0x0B] =
      before ++ 10 :: (field ++ (payload ++ after)) ∧
    before.length = 14 ∧ U32 field 7 ∧ before.length + 1 + field.length = 17 ∧
    payload.length = 7 ∧ ∃ count rest, payload = count ++ rest ∧ Unsigned 32 count 2 ∧
      Format.Each Body.Framed rest
        [⟨2, [], [⟨.endMark, .none⟩]⟩, ⟨2, [], [⟨.endMark, .none⟩]⟩] := by
  have hm : ofBytes
      [0, 97, 115, 109, 1, 0, 0, 0, 1, 4, 1, 0x60, 0, 0, 10, 0x87, 0, 2, 2, 0, 0x0B, 2, 0, 0x0B] =
      .ok ⟨1, [⟨⟨.types, 4, 10⟩, .types [⟨[], []⟩]⟩,
        ⟨⟨.code, 7, 17⟩, .code [⟨2, [], [⟨.endMark, .none⟩]⟩, ⟨2, [], [⟨.endMark, .none⟩]⟩]⟩]⟩ := by
    decide +kernel
  obtain ⟨-, -, htile⟩ := sections_tile hm
  obtain ⟨-, before, field, payload, after, hbs, hboundary, hfield, hoffset, hlen, hbodies⟩ :=
    htile 1 _ _ rfl rfl
  have hne : payload ≠ [] := by
    intro hnil
    rw [hnil] at hlen
    exact absurd hlen (by decide)
  exact ⟨before, field, payload, after, hbs, (Option.some.inj hboundary).symm, hfield, hoffset,
    hlen, hbodies _ rfl hne⟩

end Module
end WasmBinary
