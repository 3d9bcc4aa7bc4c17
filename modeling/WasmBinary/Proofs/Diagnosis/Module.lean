import Mathlib.Order.Bounds.Defs
import WasmBinary.Proofs.Diagnosis.Decoder

/-! Why a module is refused: the failure lies in the first section that is not in order, and the
error is true of the input. -/
namespace WasmBinary.Module

open Decoder

variable {bs : List UInt8} {e : DecodeError}

private theorem littleEndian_injective {xs ys : List UInt8} (hlen : xs.length = ys.length)
    (h : littleEndian xs = littleEndian ys) : xs = ys := by
  induction xs generalizing ys with
  | nil => exact (List.eq_nil_of_length_eq_zero hlen.symm).symm
  | cons x xs ih =>
    cases ys with
    | nil => simp at hlen
    | cons y ys =>
      have hx := x.toNat_lt
      have hy := y.toNat_lt
      simp only [littleEndian] at h
      have hhead : x = y := UInt8.toNat_inj.1 (by omega)
      have htail : xs = ys := ih (Nat.succ.inj hlen) (by omega)
      rw [hhead, htail]

private theorem version_ne_one {found : List UInt8} (hlen : found.length = 4)
    (hne : found ≠ supportedVersion) : UInt32.ofNat (littleEndian found) ≠ 1 ∧
      littleEndian found = (UInt32.ofNat (littleEndian found)).toNat := by
  have hlt := littleEndian_lt found
  rw [hlen] at hlt
  have hvalue : (UInt32.ofNat (littleEndian found)).toNat = littleEndian found :=
    UInt32.toNat_ofNat_of_lt' hlt
  refine ⟨?_, hvalue.symm⟩
  intro hone
  rw [hone] at hvalue
  exact hne (littleEndian_injective hlen hvalue.symm)

theorem decodeHeader_eq_error {c' : Cursor} (h : decodeHeader (.ofBytes bs) = .error e c') :
    e.within = none ∧ (e.offset = 0 ∨ e.offset = 4) ∧ e.TrueOf bs := by
  rcases bind_error h with h | ⟨found, m, hfound, h⟩
  · obtain ⟨rfl, -, hlt⟩ := bytes_eq_error h
    have hshort : bs.length < 0 + 4 := by
      rw [Nat.zero_add]
      exact hlt
    exact ⟨rfl, .inl rfl, hshort⟩
  · obtain ⟨first, hp, rfl, hlen⟩ := (follows_bytes (E := never) 4).sound hfound
    split at h
    · next hne =>
      obtain ⟨rfl, -⟩ := EStateM.Result.error.inj h
      exact ⟨rfl, .inl rfl, rfl, rfl, hne, hlen, m.pending, hp.pending⟩
    · next heq =>
      have hmagic : first = magic := Decidable.not_not.1 heq
      have hpos : m.position = 4 := by
        rw [hp.position, hlen]
        rfl
      rcases bind_error h with h | ⟨found', m', hfound', h⟩
      · obtain ⟨rfl, -, hlt⟩ := bytes_eq_error h
        have hshort : bs.length < m.position + 4 := by
          have hall := congrArg List.length hp.pending
          rw [List.length_append, hlen] at hall
          change bs.length = 4 + m.pending.length at hall
          omega
        have hstop : m.stop = .endOfInput := hp.stop
        rw [hstop]
        exact ⟨rfl, .inr hpos, hshort⟩
      · obtain ⟨second, hp', rfl, hlen'⟩ := (follows_bytes (E := never) 4).sound hfound'
        split at h
        · next hne =>
          obtain ⟨rfl, -⟩ := EStateM.Result.error.inj h
          obtain ⟨hversion, hvalue⟩ := version_ne_one hlen' hne
          have hbs : bs = magic ++ (second ++ m'.pending) := by
            rw [← hmagic, ← hp'.pending]
            exact hp.pending
          exact ⟨rfl, .inr rfl, rfl, rfl, hversion, second, m'.pending, hbs, hlen', hvalue⟩
        · exact nomatch h

theorem reads_afterHeader (rest : List UInt8) : (afterHeader rest).Reads (header ++ rest) where
  pending := rfl
  position := by
    rw [length_header_append]
    exact Nat.le_add_right _ _
  stop := rfl
  totalSize := by
    rw [length_header_append, Nat.add_comm]
    rfl

/-- A run fails in the header, or in a section after steps through others that are in order. -/
theorem decode_eq_error {c' : Cursor} (h : Module.decode (.ofBytes bs) = .error e c') :
    (decodeHeader (.ofBytes bs) = .error e c' ∧ ∀ rest, bs ≠ header ++ rest) ∨
      ∃ before es c, bs = header ++ (before ++ c.pending) ∧
        Steps SectionEntry.decode (afterHeader (before ++ c.pending)) es c ∧
        SectionEntry.Layout 8 before es ∧ c.Reads bs ∧ c.position = 8 + before.length ∧
        c.pending ≠ [] ∧ SectionEntry.decode c = .error e c' := by
  rcases bind_error h with h | ⟨version, c₁, hheader, h⟩
  · refine .inl ⟨h, fun rest hrest => ?_⟩
    rw [hrest, decodeHeader_header_append] at h
    cases h
  · obtain ⟨_, hp, rfl, -⟩ := follows_decodeHeader.sound hheader
    have hbs : bs = header ++ c₁.pending := hp.pending
    rw [hbs, decodeHeader_header_append] at hheader
    obtain ⟨-, hc₁⟩ := EStateM.Result.ok.inj hheader
    rcases bind_error h with h | ⟨es, c, -, h⟩
    · obtain ⟨es, c, hsteps, hmore, herror⟩ := steps_of_collectWhile_error h
      obtain ⟨before, hp', hlayout⟩ := SectionEntry.layout_of_steps hsteps
      have hrest : c₁.pending = before ++ c.pending := hp'.pending
      rw [← hc₁] at hsteps hlayout hp'
      have hreads := (reads_afterHeader c₁.pending).passes hp'
      have hne : c.pending ≠ [] := by
        intro hnil
        rw [hreads.honest.isAtEnd_iff.2 hnil] at hmore
        cases hmore
      rw [← hbs] at hreads
      rw [hrest] at hbs hsteps
      exact .inr ⟨before, es, c, hbs, hsteps, hlayout, hreads, hp'.position, hne, herror⟩
    · cases h

theorem ofBytes_eq_error (h : ofBytes bs = .error e) :
    (e.within = none ∧ (e.offset = 0 ∨ e.offset = 4) ∧ e.TrueOf bs ∧
        ∀ rest, bs ≠ header ++ rest) ∨
      ∃ before es c c', bs = header ++ (before ++ c.pending) ∧ SectionEntry.Layout 8 before es ∧
        c.Reads bs ∧ c.position = 8 + before.length ∧ c.pending ≠ [] ∧
        SectionEntry.decode c = .error e c' := by
  obtain ⟨c', hd⟩ := ofBytes_eq_error_iff.1 h
  rcases decode_eq_error hd with
    ⟨hheader, hno⟩ | ⟨before, es, c, hbs, -, hes, hc, hpos, hne, herror⟩
  · obtain ⟨hwithin, hoffset, htrue⟩ := decodeHeader_eq_error hheader
    exact .inl ⟨hwithin, hoffset, htrue, hno⟩
  · exact .inr ⟨before, es, c, c', hbs, hes, hc, hpos, hne, herror⟩

theorem ofBytes_take_eq_ok_iff {rest : List UInt8} {n : Nat} (hn : n ≤ (header ++ rest).length)
    {m : Module} : ofBytes ((header ++ rest).take n) = .ok m ↔ m.version = 1 ∧
      ∃ before after, rest = before ++ after ∧ n = 8 + before.length ∧
        SectionEntry.Layout 8 before m.entries := by
  rw [ofBytes_eq_ok_iff]
  refine and_congr_right fun _ => ?_
  constructor
  · intro h
    obtain ⟨before, htake, hlayout⟩ := h
    have hsplit : header ++ rest = header ++ (before ++ (header ++ rest).drop n) := by
      rw [← List.append_assoc, ← htake, List.take_append_drop]
    have hlen := congrArg List.length htake
    rw [List.length_take_of_le hn, length_header_append] at hlen
    exact ⟨before, (header ++ rest).drop n, List.append_cancel_left hsplit, hlen, hlayout⟩
  · intro h
    obtain ⟨before, after, hrest, hlen, hlayout⟩ := h
    refine ⟨before, ?_, hlayout⟩
    rw [hrest, ← List.append_assoc, hlen, ← length_header_append, List.take_left]

/-- The first `n` bytes of the input are a module by themselves. -/
def DecodesUpTo (bs : List UInt8) (n : Nat) : Prop :=
  n ≤ bs.length ∧ ∃ m, ofBytes (bs.take n) = .ok m

theorem exists_header_of_decodesUpTo {n : Nat} (h : DecodesUpTo bs n) :
    ∃ rest, bs = header ++ rest := by
  obtain ⟨-, m, hm⟩ := h
  obtain ⟨-, rest, hrest, -⟩ := ofBytes_eq_ok_iff.1 hm
  refine ⟨rest ++ bs.drop n, ?_⟩
  rw [← List.append_assoc, ← hrest, List.take_append_drop]

theorem isGreatest_of_decode_eq_error {before : List UInt8} {es : List SectionEntry} {c c' : Cursor}
    (hbs : bs = header ++ (before ++ c.pending)) (hes : SectionEntry.Layout 8 before es)
    (hc : c.Reads bs) (hpos : c.position = 8 + before.length)
    (herror : SectionEntry.decode c = .error e c') :
    IsGreatest {n | DecodesUpTo bs n} (8 + before.length) := by
  have hle : 8 + before.length ≤ bs.length := hpos ▸ hc.position
  constructor
  · refine ⟨hle, ⟨1, es⟩, ?_⟩
    rw [hbs] at hle ⊢
    exact (ofBytes_take_eq_ok_iff hle).2 ⟨rfl, before, c.pending, rfl, rfl, hes⟩
  · intro n hn
    obtain ⟨hn, m, hm⟩ := hn
    rw [hbs] at hn hm
    obtain ⟨-, longer, after, hsplit, hlen, hlayout⟩ := (ofBytes_take_eq_ok_iff hn).1 hm
    refine Nat.le_of_not_lt fun hlt => ?_
    -- More would have decoded, so a section in order begins where the decoder failed.
    obtain ⟨ys, rfl⟩ : before <+: longer :=
      List.prefix_of_prefix_length_le ⟨c.pending, rfl⟩ ⟨after, hsplit.symm⟩ (by omega)
    have hpending : c.pending = ys ++ after :=
      List.append_cancel_left (hsplit.trans (List.append_assoc _ _ _))
    obtain ⟨es₂, -, hrest⟩ := hes.of_append hlayout
    cases hrest with
    | nil => simp at hlt hlen; omega
    | @cons _ xs zs e₂ es₂ head _ =>
      rw [List.append_assoc] at hpending
      rw [← hpos] at head
      obtain ⟨m', hok, -⟩ := SectionEntry.decode_complete hc.honest hpending head
      rw [herror] at hok
      exact nomatch hok

private theorem lt_of_ofMarker?_eq_none {b : UInt8} (h : SectionId.ofMarker? b = none) :
    12 < b := by
  have hmarked : ∀ n : Fin 13, SectionId.ofMarker? (UInt8.ofNat n) ≠ none := by decide
  refine UInt8.not_le.1 fun hle => ?_
  have hlt : b.toNat < 13 := Nat.lt_succ_of_le (UInt8.le_iff_toNat_le.1 hle)
  have hb := hmarked ⟨b.toNat, hlt⟩
  rw [UInt8.ofNat_toNat] at hb
  exact hb h

/-- A module is refused at its first section that is not in order. If no part of the input from its
beginning decodes, the header is at fault. Otherwise the longest part that does ends where this
section begins: its id is unknown, or the error lies in it, after the id. -/
theorem ofBytes_error_in_first_bad_section (h : ofBytes bs = .error e) :
    ((∀ n, ¬ DecodesUpTo bs n) → e.within = none ∧ (e.offset = 0 ∨ e.offset = 4)) ∧
    ((∃ n, DecodesUpTo bs n) → ∃ p, IsGreatest {n | DecodesUpTo bs n} p ∧ p < bs.length ∧
      ∃ b, bs[p]? = some b ∧
        ((12 < b ∧ e = ⟨.unknownSectionId b, p, none⟩) ∨
          ∃ id : SectionId, id.marker = b ∧ e.within = some id ∧ p < e.offset ∧
            e.offset ≤ bs.length)) := by
  rcases ofBytes_eq_error h with
    ⟨hwithin, hoffset, -, hheader⟩ | ⟨before, es, c, c', hbs, hes, hc, hpos, hne, herror⟩
  · refine ⟨fun _ => ⟨hwithin, hoffset⟩, fun hsome => ?_⟩
    obtain ⟨n, hn⟩ := hsome
    obtain ⟨rest, hrest⟩ := exists_header_of_decodesUpTo hn
    exact absurd hrest (hheader rest)
  · have hgreatest := isGreatest_of_decode_eq_error hbs hes hc hpos herror
    refine ⟨fun hnone => absurd hgreatest.1 (hnone _), fun _ => ⟨_, hgreatest, ?_⟩⟩
    obtain ⟨b, rest, hp⟩ := List.exists_cons_of_ne_nil hne
    have hb : bs[8 + before.length]? = some b := hpos ▸ hc.getElem?_eq hp
    refine ⟨(List.getElem?_eq_some_iff.1 hb).1, b, hb, ?_⟩
    rcases SectionEntry.decode_eq_error hc hp herror with ⟨hid, he⟩ | ⟨id, e₀, hid, rfl, hfits⟩
    · exact .inl ⟨lt_of_ofMarker?_eq_none hid, hpos ▸ he⟩
    · have hmarker := SectionId.ofMarker?_eq_some_iff.1 hid
      exact .inr ⟨id, hmarker, hfits.within_inSection, hpos ▸ hfits.lower, hfits.upper⟩

/-- After a type section, a code section whose size is wrong: the type section is the last that
decodes. -/
theorem ofBytes_error_in_first_bad_section_code :
    ofBytes [0, 97, 115, 109, 1, 0, 0, 0, 1, 4, 1, 0x60, 0, 0, 10, 4, 1, 1, 0, 0x0B] =
      .error ⟨.sectionSizeMismatch .code 4 3, 16, some .code⟩ ∧
    IsGreatest {n | DecodesUpTo
      [0, 97, 115, 109, 1, 0, 0, 0, 1, 4, 1, 0x60, 0, 0, 10, 4, 1, 1, 0, 0x0B] n} 14 := by
  have herror : ofBytes [0, 97, 115, 109, 1, 0, 0, 0, 1, 4, 1, 0x60, 0, 0, 10, 4, 1, 1, 0, 0x0B] =
      .error ⟨.sectionSizeMismatch .code 4 3, 16, some .code⟩ := by decide +kernel
  have htypes : ofBytes
      ([0, 97, 115, 109, 1, 0, 0, 0, 1, 4, 1, 0x60, 0, 0, 10, 4, 1, 1, 0, 0x0B].take 14) =
      .ok ⟨1, [⟨⟨.types, 4, 10⟩, .types [⟨[], []⟩]⟩]⟩ := by decide +kernel
  have hdecodes : DecodesUpTo
      [0, 97, 115, 109, 1, 0, 0, 0, 1, 4, 1, 0x60, 0, 0, 10, 4, 1, 1, 0, 0x0B] 14 :=
    ⟨by decide, _, htypes⟩
  obtain ⟨p, hgreatest, -, b, hb, hcase⟩ :=
    (ofBytes_error_in_first_bad_section herror).2 ⟨14, hdecodes⟩
  refine ⟨herror, ?_⟩
  rcases hcase with ⟨-, he⟩ | ⟨id, hid, hwithin, hlt, -⟩
  · simp at he
  · obtain rfl := Option.some.inj hwithin
    have hp : p = 14 ∨ p = 15 := by
      have hle : 14 ≤ p := hgreatest.2 hdecodes
      have hlt' : p < 16 := hlt
      omega
    rcases hp with rfl | rfl
    · exact hgreatest
    · rw [← hid] at hb
      exact absurd hb (by decide)

/-- Every error is true of the input: the values that it carries are those of the bytes at its
offset. -/
theorem ofBytes_error_trueOf (h : ofBytes bs = .error e) : e.TrueOf bs := by
  rcases ofBytes_eq_error h with
    ⟨-, -, htrue, -⟩ | ⟨before, es, c, c', hbs, hes, hc, hpos, hne, herror⟩
  · exact htrue
  · obtain ⟨b, rest, hp⟩ := List.exists_cons_of_ne_nil hne
    rcases SectionEntry.decode_eq_error hc hp herror with ⟨-, rfl⟩ | ⟨id, e₀, -, rfl, hfits⟩
    · exact hc.getElem?_eq hp
    · exact hfits.trueOf

/-- A body that is declared one byte longer than the section holds: the size stands right before. -/
theorem ofBytes_error_trueOf_body :
    ofBytes [0, 97, 115, 109, 1, 0, 0, 0, 10, 4, 1, 3, 0, 0x0B] =
      .error ⟨.bodySizeMismatch 3 2, 12, some .code⟩ ∧
    SizeBefore [0, 97, 115, 109, 1, 0, 0, 0, 10, 4, 1, 3, 0, 0x0B] 12 [] 3 := by
  have herror : ofBytes [0, 97, 115, 109, 1, 0, 0, 0, 10, 4, 1, 3, 0, 0x0B] =
      .error ⟨.bodySizeMismatch 3 2, 12, some .code⟩ := by decide +kernel
  obtain ⟨-, -, hsize⟩ := ofBytes_error_trueOf herror
  exact ⟨herror, hsize⟩

end WasmBinary.Module
