import WasmBinary.Proofs.Format.Section

/-! What an error says about the input, and what it means that a decoder explains its failures: each
of its errors is true of the input and lies between where it began and the end. -/
namespace WasmBinary

open Leb128

/-- The most bytes that an integer of this width may take. -/
def Leb128.maxBytes (width : Nat) : Nat :=
  (width + 6) / 7

/-- The size `n` is encoded right before the place `o`, after the bytes `mark`. -/
def SizeBefore (bs : List UInt8) (o : Nat) (mark : List UInt8) (n : UInt32) : Prop :=
  ∃ before field after, bs = before ++ (mark ++ field) ++ after ∧ U32 field n ∧
    (before ++ (mark ++ field)).length = o

/-- The values that an error carries are those of the input at its offset. An integer is cut off
only where the input ends, and too long or too large only at the last byte that its width allows; a
wrong size is the one encoded right before the offset. No input in memory fails to be read. -/
def DecodeError.TrueOf (bs : List UInt8) (e : DecodeError) : Prop :=
  match e.cause with
  | .malformedHeader found =>
    e.offset = 0 ∧ e.within = none ∧ found ≠ magic ∧ found.length = 4 ∧ ∃ after, bs = found ++ after
  | .unsupportedVersion version =>
    e.offset = 4 ∧ e.within = none ∧ version ≠ 1 ∧ ∃ found after, bs = magic ++ (found ++ after) ∧
      found.length = 4 ∧ littleEndian found = version.toNat
  | .malformedInteger width .truncated =>
    (bs.drop e.offset).length < maxBytes width ∧ ∀ b ∈ bs.drop e.offset, 128 ≤ b.toNat
  | .malformedInteger width .tooLong | .malformedInteger width .tooLarge =>
    maxBytes width ≤ (bs.drop e.offset).length ∧
      ∀ b ∈ (bs.drop e.offset).take (maxBytes width - 1), 128 ≤ b.toNat
  | .unexpectedEnd wanted => bs.length < e.offset + wanted
  | .unknownSectionId b | .invalidTypeMarker b | .invalidValType b | .invalidLimitKind b
  | .unsupportedExportKind b | .unknownOpcode b => bs[e.offset]? = some b
  | .unsupportedSection id =>
    e.within = some id ∧
      ((id.isDecodable = false ∧ ∃ p, bs[p]? = some id.marker ∧ e.offset = p + 1) ∨
        (id = .imports ∧ ∃ size, SizeBefore bs e.offset [id.marker] size))
  | .sectionSizeMismatch id declared consumed =>
    e.within = some id ∧ declared.toNat ≠ consumed ∧ SizeBefore bs e.offset [id.marker] declared
  | .bodySizeMismatch declared consumed =>
    e.within = some .code ∧ declared.toNat ≠ consumed ∧ SizeBefore bs e.offset [] declared
  | .invalidName x _ =>
    (∀ s, x ≠ Utf8.encoding s) ∧
      ∃ field after, bs.drop e.offset = field ++ (x ++ after) ∧ Unsigned 32 field x.length
  | .io _ => False

/-- An error inside the section `id`, not yet attributed to it, that lies from `start` on and is
true of the input. -/
structure DecodeError.Fits (bs : List UInt8) (id : SectionId) (start : Nat) (e : DecodeError) :
    Prop where
  within : e.within = none
  lower : start ≤ e.offset
  upper : e.offset ≤ bs.length
  trueOf : (e.inSection id).TrueOf bs

theorem DecodeError.Fits.within_inSection {bs : List UInt8} {id : SectionId} {start : Nat}
    {e : DecodeError} (h : e.Fits bs id start) : (e.inSection id).within = some id := by
  rw [inSection, h.within]
  rfl

/-- The cursor stands in the input `bs`, with the rest of it to come. -/
structure Cursor.Reads (bs : List UInt8) (c : Cursor) : Prop where
  pending : c.pending = bs.drop c.position
  position : c.position ≤ bs.length
  stop : c.stop = .endOfInput
  totalSize : c.totalSize = bs.length

namespace Cursor

variable {bs ys : List UInt8} {c c' : Cursor}

theorem reads_ofBytes (bs : List UInt8) : (ofBytes bs).Reads bs :=
  ⟨rfl, Nat.zero_le _, rfl, rfl⟩

theorem Reads.update (h : c.Reads bs) (bound : Nat) (log : Array Event) :
    ({ c with bound := bound, log := log } : Cursor).Reads bs :=
  ⟨h.pending, h.position, h.stop, h.totalSize⟩

theorem Reads.honest (h : c.Reads bs) : c.Honest := by
  have hlen := congrArg List.length h.pending
  have hpos := h.position
  rw [List.length_drop] at hlen
  rw [Honest, h.totalSize]
  omega

theorem Reads.getElem?_eq (h : c.Reads bs) {b : UInt8} {rest : List UInt8}
    (hp : c.pending = b :: rest) : bs[c.position]? = some b := by
  rw [← List.head?_drop, ← h.pending, hp]
  rfl

theorem Reads.eq_append (h : c.Reads bs) (hp : c.Passes ys c') :
    bs = bs.take c.position ++ ys ++ c'.pending := by
  rw [List.append_assoc, ← hp.pending, h.pending, List.take_append_drop]

theorem Reads.length_append (h : c.Reads bs) (hp : c.Passes ys c') :
    (bs.take c.position ++ ys).length = c'.position := by
  rw [List.length_append, List.length_take_of_le h.position, hp.position]

theorem Reads.passes (h : c.Reads bs) (hp : c.Passes ys c') : c'.Reads bs where
  pending := calc
    c'.pending = (bs.take c.position ++ ys ++ c'.pending).drop c'.position :=
      (List.drop_left' (h.length_append hp)).symm
    _ = bs.drop c'.position := by rw [← h.eq_append hp]
  position := by
    have heq := congrArg List.length (h.eq_append hp)
    rw [List.length_append, h.length_append hp] at heq
    omega
  stop := hp.stop.trans h.stop
  totalSize := hp.totalSize.trans h.totalSize

end Cursor

namespace Decoder

variable {α β : Type} {bs : List UInt8} {id : SectionId} {start : Nat}

/-- The result of a decoder that began at `start`, inside the section `id`: it stands further on in
the input, or has failed with an error that fits. -/
def Explained (bs : List UInt8) (id : SectionId) (start : Nat) :
    EStateM.Result DecodeError Cursor α → Prop
  | .ok _ c => c.Reads bs ∧ start ≤ c.position
  | .error e _ => e.Fits bs id start

/-- Wherever it begins in the input, all errors of the decoder fit. -/
def Explains (bs : List UInt8) (id : SectionId) (d : Decoder α) : Prop :=
  ∀ ⦃c⦄, c.Reads bs → Explained bs id c.position (d c)

theorem Explained.mono {r : EStateM.Result DecodeError Cursor α} {start' : Nat}
    (h : Explained bs id start r) (hle : start' ≤ start) : Explained bs id start' r := by
  cases r with
  | ok a c => exact ⟨h.1, Nat.le_trans hle h.2⟩
  | error e c => exact ⟨h.within, Nat.le_trans hle h.lower, h.upper, h.trueOf⟩

theorem explained_bind {d : Decoder α} {f : α → Decoder β} {c : Cursor}
    (h : Explained bs id start (d c))
    (hf : ∀ a m, d c = .ok a m → m.Reads bs → start ≤ m.position → Explained bs id start (f a m)) :
    Explained bs id start ((d >>= f) c) := by
  rw [bind_apply]
  cases hd : d c with
  | ok a m =>
    rw [hd] at h
    exact hf a m hd h.1 h.2
  | error e m =>
    rw [hd] at h
    exact h

theorem Explains.bind {d : Decoder α} {f : α → Decoder β} (hd : Explains bs id d)
    (hf : ∀ a, Explains bs id (f a)) : Explains bs id (d >>= f) := by
  intro c hc
  exact explained_bind (hd hc) fun a m _ hm hle => (hf a hm).mono hle

theorem explains_pure (a : α) : Explains bs id (pure a) :=
  fun _ hc => ⟨hc, Nat.le_refl _⟩

theorem Explains.map {d : Decoder α} (hd : Explains bs id d) (f : α → β) :
    Explains bs id (f <$> d) := by
  rw [← bind_pure_comp]
  exact hd.bind fun a => explains_pure (f a)

theorem explains_report (event : Event) : Explains bs id (report event) :=
  fun _ hc => ⟨hc.update _ _, Nat.le_refl _⟩

theorem explained_position {f : Nat → Decoder α} {c : Cursor}
    (h : Explained bs id start (f c.position c)) : Explained bs id start ((position >>= f) c) :=
  h

theorem explained_failAt {offset : Nat} {cause : Cause} {c : Cursor} (hc : c.Reads bs)
    (hlower : start ≤ offset) (hupper : offset ≤ c.position)
    (htrue : DecodeError.TrueOf bs ⟨cause, offset, some id⟩) :
    Explained bs id start (failAt offset cause c : EStateM.Result DecodeError Cursor α) :=
  ⟨rfl, hlower, Nat.le_trans hupper hc.position, htrue⟩

theorem explains_byte : Explains bs id byte := by
  intro c hc
  unfold byte
  split
  · next hnil =>
    have hlen := congrArg List.length (hnil.symm.trans hc.pending)
    have hlt : bs.length < c.position + 1 := by
      rw [List.length_drop, List.length_nil] at hlen
      omega
    rw [hc.stop]
    exact ⟨rfl, Nat.le_refl _, hc.position, hlt⟩
  · next b rest hb =>
    have hp : c.Passes [b] { c with pending := rest, position := c.position + 1 } :=
      Cursor.passes_of_pending hb
    exact ⟨hc.passes hp, Nat.le_succ _⟩

theorem explains_bytes (n : Nat) : Explains bs id (bytes n) := by
  intro c hc
  rcases bytes_cases n c with ⟨ys, rest, hp, rfl, hok⟩ | ⟨hshort, herror⟩
  · rw [hok]
    exact ⟨hc.passes (Cursor.passes_of_pending hp), Nat.le_add_right _ _⟩
  · have hlt : bs.length < c.position + n := by
      rw [hc.pending, List.length_drop] at hshort
      omega
    rw [herror, hc.stop]
    exact ⟨rfl, Nat.le_refl _, hc.position, hlt⟩

theorem explains_read (n : Nat) : Explains bs id (read n) := by
  intro c hc
  unfold read
  split
  · next hlt =>
    rw [Cursor.remaining, hc.totalSize] at hlt
    exact ⟨rfl, Nat.le_refl _, hc.position, (by omega : bs.length < c.position + n)⟩
  · exact explains_bytes n hc

theorem getElem?_of_byte {c c' : Cursor} (hc : c.Reads bs) {b : UInt8} (h : byte c = .ok b c') :
    c.Passes [b] c' ∧ bs[c.position]? = some b := by
  obtain ⟨_, hp, rfl⟩ := (follows_byte (E := never)).sound h
  exact ⟨hp, hc.getElem?_eq hp.pending⟩

theorem explains_marker (meaning? : UInt8 → Option α) (otherwise : UInt8 → Cause)
    (htrue : ∀ b offset, bs[offset]? = some b →
      DecodeError.TrueOf bs ⟨otherwise b, offset, some id⟩) :
    Explains bs id (marker meaning? otherwise) := by
  intro c hc
  refine explained_position (explained_bind (explains_byte hc) fun b m hb hm hle => ?_)
  cases meaning? b with
  | some a => exact ⟨hm, hle⟩
  | none => exact explained_failAt hm (Nat.le_refl _) hle (htrue b _ (getElem?_of_byte hc hb).2)

theorem explains_timesFrom {d : Nat → Decoder α} (hd : ∀ i, Explains bs id (d i))
    (index count : Nat) (items : List α) : Explains bs id (timesFrom d index count items) := by
  induction count generalizing index items with
  | zero => exact explains_pure _
  | succ count ih => exact (hd index).bind fun a => ih (index + 1) (a :: items)

theorem explains_times {d : Nat → Decoder α} (hd : ∀ i, Explains bs id (d i)) (count : Nat) :
    Explains bs id (times count d) :=
  explains_timesFrom hd 0 count []

theorem explains_collectWhile {d : Decoder α} (hd : Advances d) (h : Explains bs id d)
    (more : Cursor → Bool) : Explains bs id (collectWhile more d hd) := by
  intro c hc
  generalize hn : c.left = n
  induction n using Nat.strongRecOn generalizing c with
  | ind n ih =>
    subst hn
    rw [collectWhile_eq]
    split
    · refine explained_bind (h hc) fun a m ha hm hle => ?_
      rw [← bind_pure_comp]
      exact explained_bind ((ih _ (hd ha) hm rfl).mono hle) fun as m' _ hm' hle' => ⟨hm', hle'⟩
    · exact ⟨hc, Nat.le_refl _⟩

theorem explains_collectUntil {σ : Type} {d : Decoder α} (hd : Advances d) (h : Explains bs id d)
    (next? : σ → α → Option σ) (s : σ) : Explains bs id (collectUntil next? d hd s) := by
  intro c hc
  generalize hn : c.left = n
  induction n using Nat.strongRecOn generalizing c s with
  | ind n ih =>
    subst hn
    rw [collectUntil_eq]
    refine explained_bind (h hc) fun a m ha hm hle => ?_
    cases next? s a with
    | none => exact ⟨hm, hle⟩
    | some t =>
      dsimp only
      rw [← bind_pure_comp]
      exact explained_bind ((ih _ (hd ha) t hm rfl).mono hle) fun as m' _ hm' hle' => ⟨hm', hle'⟩

end Decoder
end WasmBinary
