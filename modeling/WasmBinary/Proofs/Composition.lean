import WasmBinary.Proofs.Comparison.Decoder
import WasmBinary.Proofs.Format.Module

/-! Sections are decoded wherever they stand and whatever stood before them: a module followed by
more sections is decoded as the two parts by themselves. -/
namespace WasmBinary

open Decoder Comparison

/-- The cursor `c'` has the same before it as `c`, and stands `k` bytes further on. -/
structure Cursor.Shifted (k : Nat) (c c' : Cursor) : Prop where
  pending : c'.pending = c.pending
  stop : c'.stop = c.stop
  position : c'.position = c.position + k
  totalSize : c'.totalSize = c.totalSize + k
  bound : c'.bound = c.bound + k

/-- Runs at a distance of `k` bytes that nothing excuses from agreement. -/
def translation (k : Nat) : Comparison where
  related := Cursor.Shifted k
  shift := k
  excusesFirst _ := False
  excusesSecond _ := False

namespace Translation

variable {k : Nat}

theorem agree_byte : (translation k).Agree Eq byte byte := by
  intro c c' h
  unfold byte
  rw [h.pending, h.stop, h.position]
  cases c.pending with
  | nil => exact .inl rfl
  | cons b bs => exact ⟨rfl, rfl, rfl, Nat.add_right_comm _ _ _, h.totalSize, h.bound⟩

theorem agree_bytes (n : Nat) : (translation k).Agree Eq (bytes n) (bytes n) := by
  intro c c' h
  unfold bytes
  rw [h.pending, h.stop, h.position]
  dsimp only
  split
  · exact ⟨rfl, rfl, rfl, Nat.add_right_comm _ _ _, h.totalSize, h.bound⟩
  · exact .inl rfl

theorem agree_read (n : Nat) : (translation k).Agree Eq (read n) (read n) := by
  intro c c' h
  have hremaining : c'.remaining = c.remaining := by
    rw [Cursor.remaining, Cursor.remaining, h.position, h.totalSize]
    omega
  unfold Decoder.read
  rw [hremaining]
  split
  · exact .inl (by rw [DecodeError.moved, h.position]; rfl)
  · exact agree_bytes n h

end Translation

/-- No decoder can tell how far from the beginning it stands. -/
def translating (k : Nat) : Simulation where
  toComparison := translation k
  position h := h.position
  log h _ _ := ⟨h.pending, h.stop, h.position, h.totalSize, h.bound⟩
  byte := Translation.agree_byte
  bytes := Translation.agree_bytes
  read := Translation.agree_read
  enter h bound := ⟨h.pending, h.stop, h.position, h.totalSize, by
    rw [h.totalSize]; exact Nat.add_min_add_right _ _ _⟩
  leave h h' := ⟨h'.pending, h'.stop, h'.position, h'.totalSize, h.bound⟩
  bound h := .inl (by rw [h.position, h.bound]; exact (Nat.add_lt_add_iff_right).symm)
  truncatedFirst h := h.elim
  truncatedSecond h := h.elim

namespace Module

private theorem shifted_afterHeader {rs r : List UInt8} {c : Cursor}
    (h : (afterHeader (rs ++ r)).Passes rs c) : (afterHeader r).Shifted rs.length c := by
  have hsize : (rs ++ r).length + 8 = r.length + 8 + rs.length := by
    rw [List.length_append]
    omega
  exact ⟨h.pending_eq rfl, h.stop, h.position, h.totalSize.trans hsize, h.bound.trans hsize⟩

theorem agree_decodeAll (k : Nat) :
    (translating k).Agree (fun es es' => es' = es.map (SectionEntry.moved k))
      SectionEntry.decodeAll SectionEntry.decodeAll := by
  refine (translating k).agree_collectWhile _ (translating k).agree_entry fun {c c'} h => ?_
  have hsize : c'.totalSize = c.totalSize + k := h.totalSize
  have hpos : c'.position = c.position + k := h.position
  rw [Cursor.isAtEnd, Cursor.isAtEnd, hsize, hpos, decide_eq_decide.2 Nat.add_le_add_iff_right]

theorem ofBytes_append_eq {rs : List UInt8} {es : List SectionEntry}
    (h : SectionEntry.Layout 8 rs es) (r : List UInt8) : ofBytes (header ++ (rs ++ r)) =
      match ofBytes (header ++ r) with
      | .ok m => .ok ⟨1, es ++ m.entries.map (SectionEntry.moved rs.length)⟩
      | .error e => .error (e.moved rs.length) := by
  obtain ⟨c, hp, hc⟩ := SectionEntry.decodeAll_append h (honest_afterHeader (rs ++ r)) rfl rfl
  have hagree := agree_decodeAll rs.length (shifted_afterHeader hp)
  rw [ofBytes_header_append, ofBytes_header_append, hc, map_apply]
  revert hagree
  generalize SectionEntry.decodeAll c = result'
  generalize SectionEntry.decodeAll (afterHeader r) = result
  intro hagree
  cases result with
  | ok es₁ c₁ =>
    cases result' with
    | ok es₂ c₂ =>
      obtain ⟨hes, -⟩ := hagree
      rw [hes]
    | error e₂ c₂ => exact hagree.elim
  | error e₁ c₁ =>
    cases result' with
    | ok es₂ c₂ => exact hagree.elim
    | error e₂ c₂ =>
      rcases hagree with he | he | he
      · rw [he]; rfl
      · exact he.elim
      · exact he.elim

/-- A decoded module may be followed by more sections: they are decoded as after the header alone,
with their offsets and the offset of their error moved. -/
theorem ofBytes_append {a : List UInt8} {m : Module} (ha : ofBytes a = .ok m) (r : List UInt8) :
    (∀ m₂, ofBytes (magic ++ supportedVersion ++ r) = .ok m₂ → ∃ m', ofBytes (a ++ r) = .ok m' ∧
      m'.version = m.version ∧ m'.sections = m.sections ++ m₂.sections ∧
      m'.headers = m.headers ++
        m₂.headers.map fun h => { h with offset := h.offset + (a.length - 8) }) ∧
    (∀ e, ofBytes (magic ++ supportedVersion ++ r) = .error e →
      ofBytes (a ++ r) = .error { e with offset := e.offset + (a.length - 8) }) := by
  obtain ⟨hversion, rs, rfl, hlayout⟩ := ofBytes_eq_ok_iff.1 ha
  have heq := ofBytes_append_eq hlayout r
  have hlen : (header ++ rs).length - 8 = rs.length := by
    simp [header, magic, supportedVersion]
  rw [← List.append_assoc] at heq
  rw [hlen]
  constructor
  · intro m₂ hm₂
    change ofBytes (header ++ r) = .ok m₂ at hm₂
    rw [hm₂] at heq
    refine ⟨_, heq, hversion.symm, ?_, ?_⟩
    · simp [sections, SectionEntry.moved]
    · simp [headers, SectionEntry.moved]
  · intro e he
    change ofBytes (header ++ r) = .error e at he
    rw [he] at heq
    exact heq

/-- A module of one type section, followed by a memory section and by a code section whose size is
wrong. -/
theorem ofBytes_append_types :
    (∃ m, ofBytes ([0, 97, 115, 109, 1, 0, 0, 0, 1, 4, 1, 0x60, 0, 0] ++ [5, 3, 1, 0, 2]) = .ok m ∧
      m.version = 1 ∧ m.sections = [.types [⟨[], []⟩], .memories [⟨2, none⟩]] ∧
      m.headers = [⟨.types, 4, 10⟩, ⟨.memories, 3, 16⟩]) ∧
    ofBytes ([0, 97, 115, 109, 1, 0, 0, 0, 1, 4, 1, 0x60, 0, 0] ++ [10, 4, 1, 1, 0, 0x0B]) =
      .error ⟨.sectionSizeMismatch .code 4 3, 16, some .code⟩ := by
  have ha : ofBytes [0, 97, 115, 109, 1, 0, 0, 0, 1, 4, 1, 0x60, 0, 0] =
      .ok ⟨1, [⟨⟨.types, 4, 10⟩, .types [⟨[], []⟩]⟩]⟩ := by decide +kernel
  have hok : ofBytes (magic ++ supportedVersion ++ [5, 3, 1, 0, 2]) =
      .ok ⟨1, [⟨⟨.memories, 3, 10⟩, .memories [⟨2, none⟩]⟩]⟩ := by decide +kernel
  have herror : ofBytes (magic ++ supportedVersion ++ [10, 4, 1, 1, 0, 0x0B]) =
      .error ⟨.sectionSizeMismatch .code 4 3, 10, some .code⟩ := by decide +kernel
  exact ⟨(ofBytes_append ha _).1 _ hok, (ofBytes_append ha _).2 _ herror⟩

end Module
end WasmBinary
