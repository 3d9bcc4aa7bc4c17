import WasmBinary.Proofs.Diagnosis.Decoder

/-! Block types and the signed integers of 33 bits. A block type is told by the two top bits of its
first byte, and only a type index is read as an integer. The same comes out if every block type is
read as an integer first and told by its sign. -/
namespace WasmBinary

open Decoder Leb128

theorem Decoder.byte_of_pending {c : Cursor} {b : UInt8} {rest : List UInt8}
    (h : c.pending = b :: rest) :
    byte c = .ok b { c with pending := rest, position := c.position + 1 } := by
  unfold byte
  rw [h]

namespace Leb128

variable {c : Cursor} {b : UInt8} {rest : List UInt8}

private theorem signed_of_pending (width : Nat) (h : c.pending = b :: rest) : signed width c =
    signedFrom width c.position (moreBytes width) width b
      { c with pending := rest, position := c.position + 1 } := by
  have hnext : next width c.position c =
      .ok b { c with pending := rest, position := c.position + 1 } := by
    unfold next
    rw [byte_of_pending h]
  change (next width c.position >>= signedFrom width c.position (moreBytes width) width) c = _
  rw [bind_apply, hnext]

theorem signedFrom_of_not_continues {width : Nat} (hw : 7 < width) (start more : Nat)
    (hb : ¬ continues b) : signedFrom width start more width b = pure (signedPayload b) := by
  unfold signedFrom
  rw [if_pos (by simpa using hb), if_pos (signedPayload_mem hw.le b)]

end Leb128

namespace BlockType

variable {c c' : Cursor} {b : UInt8} {rest : List UInt8} {v : Int}

/-! ### The meaning of an integer -/

/-- The block type that an integer stands for if it begins with the byte `b`. -/
def ofInteger? (b : UInt8) (v : Int) : Option BlockType :=
  if 0 ≤ v then some (.type ⟨UInt32.ofNat v.toNat⟩)
  else if b = 0x40 then some .empty
  else (ValType.ofMarker? b).map .value

/-- The same for an integer that begins at `offset`, where it is refused if it has no meaning. -/
def ofInteger (offset : Nat) (b : UInt8) (v : Int) : Decoder BlockType :=
  (ofInteger? b v).elim (failAt offset (.invalidValType b)) pure

private theorem ofInteger?_of_nonneg (hv : 0 ≤ v) :
    ofInteger? b v = some (.type ⟨UInt32.ofNat v.toNat⟩) := by
  rw [ofInteger?, if_pos hv]

private theorem ofInteger?_of_empty (hv : v < 0) (hb : b = 0x40) :
    ofInteger? b v = some .empty := by
  rw [ofInteger?, if_neg (Int.not_le.2 hv), if_pos hb]

private theorem ofInteger?_of_ne_empty (hv : v < 0) (hb : b ≠ 0x40) :
    ofInteger? b v = (ValType.ofMarker? b).map .value := by
  rw [ofInteger?, if_neg (Int.not_le.2 hv), if_neg hb]

private theorem ofMarker?_eq_none (h : ∀ t : ValType, b ≠ t.marker) :
    ValType.ofMarker? b = none := by
  cases ht : ValType.ofMarker? b with
  | none => rfl
  | some t => exact absurd (ValType.ofMarker?_eq_some_iff.1 ht).symm (h t)

private theorem ofInteger?_of_refused (hv : v < 0) (hb : b ≠ 0x40)
    (h : ∀ t : ValType, b ≠ t.marker) : ofInteger? b v = none := by
  rw [ofInteger?_of_ne_empty hv hb, ofMarker?_eq_none h]
  rfl

/-! ### The shortcut -/

/-- The markers are first bytes with the two top bits `01`, as is that of the empty block type. -/
theorem ne_marker (h : ¬ (0x40 ≤ b ∧ b < 0x80)) (t : ValType) : b ≠ t.marker := by
  intro hb
  rw [hb] at h
  exact h (marker_mem t)

private theorem ne_empty (h : ¬ (0x40 ≤ b ∧ b < 0x80)) : b ≠ 0x40 := by
  intro hb
  rw [hb] at h
  exact h (by decide)

private theorem not_continues (h : 0x40 ≤ b ∧ b < 0x80) : ¬ continues b := by
  rw [continues_iff]
  exact Nat.not_le.2 (UInt8.lt_iff_toNat_lt.1 h.2)

private theorem signedPayload_neg (h : 0x40 ≤ b ∧ b < 0x80) : signedPayload b < 0 := by
  have hlow : 64 ≤ b.toNat := UInt8.le_iff_toNat_le.1 h.1
  have hhigh : b.toNat < 128 := UInt8.lt_iff_toNat_lt.1 h.2
  unfold signedPayload payload
  rw [if_neg (by omega)]
  omega

private theorem decode_of_pending (h : c.pending = b :: rest) : decode c =
    decodeAfter c.position b { c with pending := rest, position := c.position + 1 } := by
  change (byte >>= decodeAfter c.position) c = _
  rw [bind_apply, byte_of_pending h]

theorem decodeAfter_eq (offset : Nat) (b : UInt8) : decodeAfter offset b =
    signedFrom 33 offset (moreBytes 33) 33 b >>= ofInteger offset b := by
  unfold decodeAfter
  by_cases hmem : (0x40 : UInt8) ≤ b ∧ b < 0x80
  · have hneg := signedPayload_neg hmem
    rw [if_pos hmem, signedFrom_of_not_continues (by decide) offset _ (not_continues hmem),
      pure_bind]
    unfold ofInteger
    by_cases hb : b = 0x40
    · rw [if_pos hb, ofInteger?_of_empty hneg hb]
      rfl
    · rw [if_neg hb, ofInteger?_of_ne_empty hneg hb]
      cases ValType.ofMarker? b with
      | some t => rfl
      | none => rfl
  · have hempty := ne_empty hmem
    rw [if_neg hempty, if_neg hmem]
    congr 1
    funext v
    unfold ofInteger
    by_cases hv : 0 ≤ v
    · rw [if_pos hv, ofInteger?_of_nonneg hv]
      rfl
    · rw [if_neg hv, ofInteger?_of_refused (Int.not_le.1 hv) hempty (ne_marker hmem)]
      rfl

/-- Where a byte is left, a block type is read as an integer and then told by its sign. -/
theorem decode_eq_ofInteger (h : c.pending = b :: rest) :
    decode c = (s33 >>= ofInteger c.position b) c := by
  rw [decode_of_pending h, decodeAfter_eq, bind_apply, bind_apply, s33, signed_of_pending 33 h]

theorem decode_of_ok (h : c.pending = b :: rest) (hv : s33 c = .ok v c') :
    decode c = ofInteger c.position b v c' := by
  rw [decode_eq_ofInteger h, bind_apply, hv]

private theorem not_mem_of_padded (h : c.pending = b :: rest) (hv : s33 c = .ok v c')
    (hlong : c'.position ≠ c.position + 1) : ¬ (0x40 ≤ b ∧ b < 0x80) := by
  intro hmem
  rw [s33, signed_of_pending 33 h,
    signedFrom_of_not_continues (by decide) c.position _ (not_continues hmem)] at hv
  obtain ⟨-, rfl⟩ := EStateM.Result.ok.inj hv
  exact hlong rfl

/-- How a block type is read where the byte `b` is next, compared with an integer of 33 bits. -/
structure AgreesWithInteger (b : UInt8) (c : Cursor) : Prop where
  fails : ∀ e c', s33 c = .error e c' → decode c = .error e c'
  index : ∀ v c', s33 c = .ok v c' → 0 ≤ v →
    v < UInt32.size ∧ ∃ i : TypeIdx, i.value.toNat = v ∧ decode c = .ok (.type i) c'
  empty : ∀ v c', s33 c = .ok v c' → v < 0 → b = 0x40 → decode c = .ok .empty c'
  value : ∀ v c' t, s33 c = .ok v c' → v < 0 → b = ValType.marker t → decode c = .ok (.value t) c'
  refuses : ∀ v c', s33 c = .ok v c' → v < 0 → b ≠ 0x40 → (∀ t, b ≠ ValType.marker t) →
    decode c = .error ⟨.invalidValType b, c.position, none⟩ c'
  /-- A negative number in more than one byte is no block type, whatever the number. -/
  refuses_padded : ∀ v c', s33 c = .ok v c' → v < 0 → c'.position ≠ c.position + 1 →
    decode c = .error ⟨.invalidValType b, c.position, none⟩ c'
  /-- Both take the same bytes. -/
  takes : ∀ t c', decode c = .ok t c' → ∃ v, s33 c = .ok v c'

/-- The shortcut by the first byte agrees with the grammar of the integers. -/
theorem decode_agrees_with_integer (h : c.pending = b :: rest) : AgreesWithInteger b c where
  fails e c' he := by
    rw [decode_eq_ofInteger h, bind_apply, he]
  index v c' hv hnonneg := by
    have hfollows : Follows never (Signed 33) (signed 33) := follows_signed (by decide)
    obtain ⟨bs, -, hsigned⟩ := hfollows.sound hv
    have hupper : v < UInt32.size := hsigned.upper
    have hvalue : (UInt32.ofNat v.toNat).toNat = v.toNat :=
      UInt32.toNat_ofNat_of_lt' (by omega : v.toNat < UInt32.size)
    refine ⟨hupper, ⟨UInt32.ofNat v.toNat⟩, by rw [hvalue, Int.toNat_of_nonneg hnonneg], ?_⟩
    rw [decode_of_ok h hv, ofInteger, ofInteger?_of_nonneg hnonneg]
    rfl
  empty v c' hv hneg hb := by
    rw [decode_of_ok h hv, ofInteger, ofInteger?_of_empty hneg hb]
    rfl
  value v c' t hv hneg hb := by
    have hne : b ≠ 0x40 := hb ▸ marker_ne t
    have ht : ValType.ofMarker? b = some t := ValType.ofMarker?_eq_some_iff.2 hb.symm
    rw [decode_of_ok h hv, ofInteger, ofInteger?_of_ne_empty hneg hne, ht]
    rfl
  refuses v c' hv hneg hne hmarker := by
    rw [decode_of_ok h hv, ofInteger, ofInteger?_of_refused hneg hne hmarker]
    rfl
  refuses_padded v c' hv hneg hlong := by
    have hmem := not_mem_of_padded h hv hlong
    rw [decode_of_ok h hv, ofInteger, ofInteger?_of_refused hneg (ne_empty hmem) (ne_marker hmem)]
    rfl
  takes t c' ht := by
    rw [decode_eq_ofInteger h] at ht
    obtain ⟨v, m, hv, hanswer⟩ := bind_ok ht
    rw [ofInteger] at hanswer
    cases hs : ofInteger? b v with
    | some s =>
      rw [hs] at hanswer
      obtain ⟨-, rfl⟩ := EStateM.Result.ok.inj hanswer
      exact ⟨v, hv⟩
    | none =>
      rw [hs] at hanswer
      cases hanswer

/-- After the first byte of `02 C0 7F 0B` stands -64 in two bytes. The integer is read, and the
block type is refused though the byte 0x40 alone, which is the same number, is the empty one. -/
theorem decode_agrees_with_integer_padded : ∃ c c' : Cursor,
    c.Reads [0x02, 0xC0, 0x7F, 0x0B] ∧ c.position = 1 ∧ c'.position = 3 ∧
      s33 c = .ok (-64) c' ∧ decode c = .error ⟨.invalidValType 0xC0, 1, none⟩ c' := by
  have hreads : Cursor.Reads [0x02, 0xC0, 0x7F, 0x0B]
      ⟨[0xC0, 0x7F, 0x0B], .endOfInput, 1, 4, 4, #[]⟩ :=
    ⟨rfl, by decide, rfl, rfl⟩
  have hv : s33 ⟨[0xC0, 0x7F, 0x0B], .endOfInput, 1, 4, 4, #[]⟩ =
      .ok (-64) ⟨[0x0B], .endOfInput, 3, 4, 4, #[]⟩ := by
    rfl
  exact ⟨_, _, hreads, rfl, rfl, hv,
    (decode_agrees_with_integer rfl).refuses_padded _ _ hv (by decide) (by decide)⟩

end BlockType
end WasmBinary
