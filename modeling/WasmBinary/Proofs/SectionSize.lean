import WasmBinary.Proofs.Tiling

/-! A section under a size that is not its own is always refused as such. -/
namespace WasmBinary

open Decoder Leb128

namespace SectionEntry

/-- The errors of a section that takes `consumed` bytes and declares another size. -/
def IsMismatch (id : SectionId) (size : UInt32) (consumed : Nat) (e : DecodeError) : Prop :=
  e.within = some id ∧ (e.cause = .sectionSizeMismatch id size consumed ∨
    (id = .code ∧ size.toNat < consumed ∧
      ∃ declared taken, e.cause = .bodySizeMismatch declared taken))

theorem decode_of_wrong_size {c : Cursor} {field bs rest : List UInt8} {s : Section} {size : UInt32}
    (hc : c.Honest) (hp : c.pending = s.tag :: (field ++ (bs ++ rest))) (hfield : U32 field size)
    (hitems : Section.Items bs s) (hzero : size ≠ 0) (hne : bs.length ≠ size.toNat) :
    ∃ e c', decode c = .error e c' ∧ IsMismatch s.id size bs.length e := by
  rw [← Section.marker_id] at hp
  have hpm : c.Passes [s.id.marker]
      { c with pending := field ++ (bs ++ rest), position := c.position + 1 } :=
    Cursor.passes_of_pending hp
  have hs : if size = 0 then bs = [] ∧ s.isEmpty = true else Section.Items bs s := by
    rw [if_neg hzero]
    exact hitems
  rw [decode_apply (Section.isDecodable_id s) hp, inSection]
  rcases decodeAfter_of_payload (hpm.honest hc) rfl hfield hs with
    ⟨c', -, hafter⟩ | ⟨hlt, e, c', hafter, hcode, hwithin, hcause⟩
  · rw [hafter, if_neg hne]
    exact ⟨_, c', rfl, rfl, .inl rfl⟩
  · have hsome : (e.inSection s.id).within = some s.id := by
      rw [DecodeError.inSection, hwithin]
      rfl
    rw [hafter]
    exact ⟨_, c', rfl, hsome, .inr ⟨hcode, hlt, hcause⟩⟩

end SectionEntry

namespace Module

theorem ofBytes_of_wrong_size {before field payload : List UInt8} {es : List SectionEntry}
    {s : Section} {size : UInt32} (hbefore : SectionEntry.Layout 8 before es)
    (hfield : U32 field size) (hitems : Section.Items payload s) (hzero : size ≠ 0)
    (hne : payload.length ≠ size.toNat) (rest : List UInt8) :
    ∃ e, ofBytes (header ++ (before ++ s.tag :: (field ++ (payload ++ rest)))) = .error e ∧
      SectionEntry.IsMismatch s.id size payload.length e := by
  have hhonest := honest_afterHeader (before ++ s.tag :: (field ++ (payload ++ rest)))
  obtain ⟨c, hp, hc⟩ := SectionEntry.decodeAll_append hbefore hhonest rfl rfl
  have hpending := hp.pending_eq rfl
  obtain ⟨e, c', hdecode, he⟩ := SectionEntry.decode_of_wrong_size (hp.honest hhonest) hpending
    hfield hitems hzero hne
  have hmore : c.pending ≠ [] := by simp [hpending]
  have hall := SectionEntry.decodeAll_of_ne_nil (hp.honest hhonest) hmore
  refine ⟨e, ?_, he⟩
  rw [ofBytes_header_append, hc, map_apply, hall, bind_apply, hdecode]

private theorem take_append_drop_replaced (xs ys zs field : List UInt8) :
    (xs ++ (ys ++ zs)).take xs.length ++ field ++ (xs ++ (ys ++ zs)).drop (xs.length + ys.length) =
      xs ++ (field ++ zs) := by
  simp

/-- If the size field of a section of a decoded module is replaced by one of another size, neither
of them 0, then this very section is refused: its payload takes the bytes that it took before, or
one of its bodies is cut off by a size that is too small. -/
theorem ofBytes_resized {bs : List UInt8} {m : Module} (hm : ofBytes bs = .ok m) {i start : Nat}
    {header : SectionHeader} (hstart : m.boundaries[i]? = some start)
    (hheader : m.headers[i]? = some header) (hsize : header.size ≠ 0) {size : UInt32}
    (hzero : size ≠ 0) (hne : size ≠ header.size) {field : List UInt8} (hfield : U32 field size) :
    ∃ e, ofBytes (bs.take (start + 1) ++ field ++ bs.drop header.offset) = .error e ∧
      e.within = some header.id ∧
      (e.cause = .sectionSizeMismatch header.id size header.size.toNat ∨
        (header.id = .code ∧ size < header.size ∧
          ∃ declared consumed, e.cause = .bodySizeMismatch declared consumed)) := by
  obtain ⟨-, rest, hbs, hlayout⟩ := ofBytes_eq_ok_iff.1 hm
  rw [headers, List.getElem?_map, Option.map_eq_some_iff] at hheader
  obtain ⟨entry, hentry, rfl⟩ := hheader
  obtain ⟨bs₁, bs₂, bs₃, hrest, hbefore, hencodes, hboundary⟩ := exists_entry_at hlayout hentry
  obtain rfl := Option.some.inj (hstart.symm.trans hboundary)
  cases hencodes with
  | @intro old payload _ hid _ hoffset hlen hpayload =>
    have hitems : Section.Items payload entry.payload := by
      rw [Section.payload_iff hlen, if_neg hsize] at hpayload
      exact hpayload
    have hwrong : payload.length ≠ size.toNat := by
      rw [hlen]
      exact fun h => hne (UInt32.toNat_inj.1 h.symm)
    have hsplit :
        bs = (Module.header ++ bs₁ ++ [entry.payload.tag]) ++ (old ++ (payload ++ bs₃)) := by
      rw [hbs, hrest]
      simp
    have hlength : (Module.header ++ bs₁ ++ [entry.payload.tag]).length = 8 + bs₁.length + 1 := by
      rw [List.length_append, List.length_append]
      rfl
    have hreplaced := take_append_drop_replaced (Module.header ++ bs₁ ++ [entry.payload.tag]) old
      (payload ++ bs₃) field
    rw [← hsplit, hlength, ← hoffset] at hreplaced
    obtain ⟨e, he, hwithin, hcause⟩ :=
      ofBytes_of_wrong_size hbefore hfield hitems hzero hwrong bs₃
    rw [← hid] at hwithin hcause
    rw [hlen] at hcause
    refine ⟨e, ?_, hwithin, ?_⟩
    · rw [hreplaced, ← he]
      simp
    · rcases hcause with hcause | ⟨hcode, hlt, hcause⟩
      · exact .inl hcause
      · exact .inr ⟨hcode, UInt32.lt_iff_toNat_lt.2 hlt, hcause⟩

/-- A code section of two bodies under the size 4, padded to three bytes, which is too small. -/
theorem ofBytes_resized_code : ∃ e, ofBytes
    ([0, 97, 115, 109, 1, 0, 0, 0, 1, 4, 1, 0x60, 0, 0, 10] ++ [0x84, 0x80, 0] ++
      [2, 2, 0, 0x0B, 2, 0, 0x0B]) = .error e ∧ e.within = some .code ∧
    (e.cause = .sectionSizeMismatch .code 4 7 ∨ (SectionId.code = .code ∧ (4 : UInt32) < 7 ∧
      ∃ declared consumed, e.cause = .bodySizeMismatch declared consumed)) := by
  have hm : ofBytes
      [0, 97, 115, 109, 1, 0, 0, 0, 1, 4, 1, 0x60, 0, 0, 10, 7, 2, 2, 0, 0x0B, 2, 0, 0x0B] =
      .ok ⟨1, [⟨⟨.types, 4, 10⟩, .types [⟨[], []⟩]⟩,
        ⟨⟨.code, 7, 16⟩, .code [⟨2, [], [⟨.endMark, .none⟩]⟩, ⟨2, [], [⟨.endMark, .none⟩]⟩]⟩]⟩ := by
    decide +kernel
  have hfield : U32 [0x84, 0x80, 0] 4 := ⟨by simp [Delimited], by decide, by decide, by decide⟩
  exact ofBytes_resized hm (i := 1) rfl rfl (by decide) (by decide) (by decide) hfield

end Module
end WasmBinary
