import WasmBinary.Proofs.Diagnosis.Module
import WasmBinary.Proofs.Tiling

/-! A module that is cut off: it is accepted only between two sections, and otherwise refused in the
section that was cut. -/
namespace WasmBinary

open Decoder

namespace SectionEntry

private theorem Layout.stop_mem {p : Nat} {bs : List UInt8} {es : List SectionEntry}
    (h : Layout p bs es) {e : SectionEntry} (he : e ∈ es) :
    p < e.header.stop ∧ e.header.stop ≤ p + bs.length := by
  induction h with
  | nil p => simp at he
  | @cons p bs cs e' es head tail ih =>
    have hpos := List.length_pos_of_ne_nil head.ne_nil
    have hstop := head.stop_eq
    rw [List.length_append]
    rcases List.mem_cons.1 he with rfl | he
    · omega
    · have hrest := ih he
      omega

private theorem Layout.filter_append {p n : Nat} {bs cs : List UInt8} {es es₂ : List SectionEntry}
    (h : Layout p bs es) (h₂ : Layout n cs es₂) (hn : n = p + bs.length) :
    (es ++ es₂).filter (fun e => e.header.stop ≤ n) = es := by
  have hfirst : es.filter (fun e => e.header.stop ≤ n) = es := by
    refine List.filter_eq_self.2 fun e he => ?_
    have hstop := (h.stop_mem he).2
    exact decide_eq_true (by omega)
  have hsecond : es₂.filter (fun e => e.header.stop ≤ n) = [] := by
    refine List.filter_eq_nil_iff.2 fun e he => ?_
    have hstop := (h₂.stop_mem he).1
    simpa using hstop
  rw [List.filter_append, hfirst, hsecond, List.append_nil]

/-- Where an entry stands, a failure means that the input ends inside it, and belongs to it. -/
theorem EncodesAt.decode_eq_error {bs xs ys after : List UInt8} {c c' : Cursor} {e : DecodeError}
    {cut : SectionEntry} (h : EncodesAt c.position xs cut) (hc : c.Reads bs)
    (hp : c.pending ++ after = xs ++ ys) (hne : c.pending ≠ [])
    (herror : SectionEntry.decode c = .error e c') :
    c.pending.length < xs.length ∧ e.within = some cut.header.id := by
  constructor
  · refine Nat.lt_of_not_le fun hle => ?_
    obtain ⟨zs, hzs⟩ : xs <+: c.pending :=
      List.prefix_of_prefix_length_le ⟨ys, hp.symm⟩ ⟨after, rfl⟩ hle
    obtain ⟨m, hok, -⟩ := decode_complete hc.honest hzs.symm h
    rw [herror] at hok
    exact nomatch hok
  · obtain ⟨b, rest, hb⟩ := List.exists_cons_of_ne_nil hne
    have hid : SectionId.ofMarker? b = some cut.header.id := by
      cases h with
      | intro hid =>
        rw [hb, List.cons_append, List.cons_append] at hp
        rw [(List.cons.inj hp).1, hid, ← Section.marker_id]
        exact SectionId.ofMarker?_eq_some_iff.2 rfl
    rcases SectionEntry.decode_eq_error hc hb herror with ⟨hnone, -⟩ | ⟨id, e₀, hsome, rfl, hfits⟩
    · rw [hid] at hnone
      exact nomatch hnone
    · rw [hid] at hsome
      rw [Option.some.inj hsome]
      exact hfits.within_inSection

end SectionEntry

namespace Module

variable {rest : List UInt8} {m : Module} {n : Nat}

theorem ofBytes_take_of_mem_boundaries (h : SectionEntry.Layout 8 rest m.entries)
    (hn : n ∈ m.boundaries) : ∃ m', ofBytes ((header ++ rest).take n) = .ok m' := by
  obtain ⟨i, hi⟩ := List.getElem?_of_mem hn
  have hlt : i < m.boundaries.length := (List.getElem?_eq_some_iff.1 hi).1
  have hle : i ≤ m.entries.length := by
    rw [boundaries_eq, List.length_cons, List.length_map] at hlt
    omega
  obtain ⟨bs₁, bs₂, hrest, htake, -, hboundary⟩ := h.splitAt hle
  rw [← boundaries_eq, hi] at hboundary
  have hlen : n = 8 + bs₁.length := Option.some.inj hboundary
  have hbound : n ≤ (header ++ rest).length := by
    rw [hrest, hlen, length_header_append, List.length_append]
    omega
  exact ⟨⟨1, m.entries.take i⟩,
    (ofBytes_take_eq_ok_iff hbound).2 ⟨rfl, bs₁, bs₂, hrest, hlen, htake⟩⟩

theorem entries_of_ofBytes_take (h : SectionEntry.Layout 8 rest m.entries)
    (hn : n ≤ (header ++ rest).length) {m' : Module}
    (hm' : ofBytes ((header ++ rest).take n) = .ok m') : n ∈ m.boundaries ∧ m'.version = 1 ∧
      m'.entries = m.entries.filter fun e => e.header.stop ≤ n := by
  obtain ⟨hversion, bs₁, bs₂, hrest, hlen, hfirst⟩ := (ofBytes_take_eq_ok_iff hn).1 hm'
  rw [hrest] at h
  obtain ⟨es₂, hes, hsecond⟩ := hfirst.of_append h
  have hlast : n ∈ m'.boundaries := by
    have hlast := getLast?_boundaries hfirst
    rw [← hlen] at hlast
    exact List.mem_of_getLast? hlast
  refine ⟨?_, hversion, ?_⟩
  · rw [boundaries_eq] at hlast ⊢
    rw [hes, List.map_append]
    rcases List.mem_cons.1 hlast with hlast | hlast
    · exact hlast ▸ List.mem_cons_self
    · exact List.mem_cons_of_mem _ (List.mem_append_left _ hlast)
  · rw [← hlen] at hsecond
    rw [hes, hfirst.filter_append hsecond hlen]

private theorem boundaries_getElem?_length {before : List UInt8} {es es₂ : List SectionEntry}
    (h : SectionEntry.Layout 8 before es) (hes : m.entries = es ++ es₂) :
    m.boundaries[es.length]? = some (8 + before.length) := by
  have hlast := getLast?_boundaries (m := ⟨1, es⟩) h
  have hlength : (8 :: es.map (·.header.stop)).length = es.length + 1 := by simp
  rw [boundaries_eq, List.getLast?_eq_getElem?, hlength, Nat.add_sub_cancel] at hlast
  rw [boundaries_eq, hes, List.map_append, ← List.cons_append,
    List.getElem?_append_left (by omega), hlast]

theorem within_of_ofBytes_take (h : SectionEntry.Layout 8 rest m.entries) (hn : 8 ≤ n)
    (hle : n ≤ (header ++ rest).length) {e : DecodeError}
    (he : ofBytes ((header ++ rest).take n) = .error e) :
    ∃ (i start : Nat) (cut : SectionHeader), m.boundaries[i]? = some start ∧
      m.headers[i]? = some cut ∧ start < n ∧ n < cut.stop ∧ e.within = some cut.id := by
  rcases ofBytes_eq_error he with
    ⟨-, -, -, hno⟩ | ⟨before, es, c, c', htake, hes, hc, hpos, hne, herror⟩
  · have htake : (header ++ rest).take n = header ++ rest.take (n - 8) := by
      have hheader : header.length ≤ n := hn
      rw [List.take_append, List.take_of_length_le hheader]
      rfl
    exact absurd htake (hno _)
  · have hall : header ++ rest = header ++ (before ++ (c.pending ++ (header ++ rest).drop n)) := by
      rw [← List.append_assoc before, ← List.append_assoc, ← htake, List.take_append_drop]
    rw [List.append_cancel_left hall] at h
    obtain ⟨es₂, hentries, hlayout⟩ := hes.of_append h
    -- The entries before the cut are the first ones of `m`; what fails is the one after them.
    generalize hafter : c.pending ++ (header ++ rest).drop n = after at hlayout
    cases hlayout with
    | nil => exact absurd (List.append_eq_nil_iff.1 hafter).1 hne
    | @cons _ xs ys cut es₃ head _ =>
      have hboundary := boundaries_getElem?_length hes hentries
      have hcut : m.headers[es.length]? = some cut.header := by
        simp [headers, hentries]
      rw [← hpos] at head
      obtain ⟨hshort, hwithin⟩ := head.decode_eq_error hc hafter hne herror
      have hlen := congrArg List.length htake
      have hpending := List.length_pos_of_ne_nil hne
      have hstop := head.stop_eq
      rw [List.length_take_of_le hle, length_header_append, List.length_append] at hlen
      exact ⟨es.length, 8 + before.length, cut.header, hboundary, hcut, by omega, by omega, hwithin⟩

/-- The beginning of a decoded module is refused for the header if it is cut off in it. It is
accepted exactly between two sections, as the module of those sections that end in it; everywhere
else it is refused in the section that is cut. -/
theorem ofBytes_take {bs : List UInt8} (hm : ofBytes bs = .ok m) (hn : n < bs.length) :
    ((∃ m', ofBytes (bs.take n) = .ok m') ↔
      n = 8 ∨ ∃ header ∈ m.headers, n = header.offset + header.size.toNat) ∧
    (∀ m', ofBytes (bs.take n) = .ok m' → m'.version = m.version ∧
      m'.entries = m.entries.filter fun e => e.header.offset + e.header.size.toNat ≤ n) ∧
    (∀ e, ofBytes (bs.take n) = .error e → (n < 8 → e.within = none) ∧
      (8 < n → ∃ (i start : Nat) (cut : SectionHeader), m.boundaries[i]? = some start ∧
        m.headers[i]? = some cut ∧ start < n ∧ n < cut.offset + cut.size.toNat ∧
        e.within = some cut.id)) := by
  obtain ⟨hversion, rest, rfl, hlayout⟩ := ofBytes_eq_ok_iff.1 hm
  have hle := Nat.le_of_lt hn
  have hboundaries : n ∈ m.boundaries ↔
      n = 8 ∨ ∃ header ∈ m.headers, n = header.offset + header.size.toNat := by
    simp [boundaries, SectionHeader.stop, eq_comm]
  refine ⟨⟨fun h => ?_, fun h => ?_⟩, fun m' hm' => ?_, fun e he => ⟨fun hlt => ?_, fun hgt => ?_⟩⟩
  · obtain ⟨m', hm'⟩ := h
    exact hboundaries.1 (entries_of_ofBytes_take hlayout hle hm').1
  · exact ofBytes_take_of_mem_boundaries hlayout (hboundaries.2 h)
  · obtain ⟨-, hone, hentries⟩ := entries_of_ofBytes_take hlayout hle hm'
    exact ⟨hone.trans hversion.symm, hentries⟩
  · rcases ofBytes_eq_error he with ⟨hwithin, -⟩ | ⟨before, es, c, c', htake, -⟩
    · exact hwithin
    · have hlen := congrArg List.length htake
      rw [List.length_take_of_le hle, length_header_append] at hlen
      omega
  · exact within_of_ofBytes_take hlayout (Nat.le_of_lt hgt) hle he

/-- A type section and a code section of two bodies, cut between the sections and between the
bodies. -/
theorem ofBytes_take_types_code :
    (∃ m', ofBytes (List.take 14
      [0, 97, 115, 109, 1, 0, 0, 0, 1, 4, 1, 0x60, 0, 0, 10, 7, 2, 2, 0, 0x0B, 2, 0, 0x0B]) =
      .ok m' ∧ m'.entries = [⟨⟨.types, 4, 10⟩, .types [⟨[], []⟩]⟩]) ∧
    ∃ e, ofBytes (List.take 20
      [0, 97, 115, 109, 1, 0, 0, 0, 1, 4, 1, 0x60, 0, 0, 10, 7, 2, 2, 0, 0x0B, 2, 0, 0x0B]) =
      .error e ∧ e.within = some .code := by
  have hm : ofBytes
      [0, 97, 115, 109, 1, 0, 0, 0, 1, 4, 1, 0x60, 0, 0, 10, 7, 2, 2, 0, 0x0B, 2, 0, 0x0B] =
      .ok ⟨1, [⟨⟨.types, 4, 10⟩, .types [⟨[], []⟩]⟩,
        ⟨⟨.code, 7, 16⟩, .code [⟨2, [], [⟨.endMark, .none⟩]⟩, ⟨2, [], [⟨.endMark, .none⟩]⟩]⟩]⟩ := by
    decide +kernel
  have h14 : 14 < 23 := by decide
  have h20 : 20 < 23 := by decide
  obtain ⟨hiff, hentries, -⟩ := ofBytes_take hm h14
  obtain ⟨hiff', -, herror⟩ := ofBytes_take hm h20
  constructor
  · obtain ⟨m', hm'⟩ := hiff.2 (.inr ⟨⟨.types, 4, 10⟩, by simp [headers], rfl⟩)
    exact ⟨m', hm', (hentries m' hm').2⟩
  · generalize hcut : ofBytes (List.take 20 _) = cut at hiff' herror ⊢
    cases cut with
    | ok m' => exact absurd (hiff'.1 ⟨m', rfl⟩) (by simp [headers])
    | error e =>
      obtain ⟨i, start, cut, -, hi, -, hgt, hwithin⟩ := (herror e rfl).2 (by decide)
      rcases i with _ | _ | i
      · obtain rfl := Option.some.inj hi
        exact absurd hgt (by decide)
      · obtain rfl := Option.some.inj hi
        exact ⟨e, rfl, hwithin⟩
      · cases hi

end Module
end WasmBinary
