import WasmBinary.Cursor

/-! Progress: which decoders take at least one byte whenever they succeed, so that repeating them
comes to an end. -/
namespace WasmBinary

/-- The number of bytes that the stream will still deliver. -/
def Cursor.left (c : Cursor) : Nat :=
  c.pending.length

namespace Decoder

variable {α β : Type}

theorem map_apply (f : α → β) (d : Decoder α) (c : Cursor) :
    (f <$> d) c =
      match d c with
      | .ok a c' => .ok (f a) c'
      | .error e c' => .error e c' := by
  change EStateM.map f d c = _
  unfold EStateM.map
  cases d c <;> rfl

theorem bind_apply (d : Decoder α) (f : α → Decoder β) (c : Cursor) :
    (d >>= f) c =
      match d c with
      | .ok a c' => f a c'
      | .error e c' => .error e c' := by
  change EStateM.bind d f c = _
  unfold EStateM.bind
  cases d c <;> rfl

/-- Success leaves no more bytes than before. -/
def NonGrowing (d : Decoder α) : Prop :=
  ∀ ⦃c a c'⦄, d c = .ok a c' → c'.left ≤ c.left

/-- Success leaves fewer bytes than before. -/
def Advances (d : Decoder α) : Prop :=
  ∀ ⦃c a c'⦄, d c = .ok a c' → c'.left < c.left

theorem Advances.nonGrowing {d : Decoder α} (h : Advances d) : NonGrowing d :=
  fun _ _ _ hd => Nat.le_of_lt (h hd)

theorem nonGrowing_pure (a : α) : NonGrowing (pure a : Decoder α) := by
  intro c b c' h
  obtain ⟨_, rfl⟩ := EStateM.Result.ok.inj h
  exact Nat.le_refl _

theorem bind_ok {d : Decoder α} {f : α → Decoder β} {c c' : Cursor} {b : β}
    (h : (d >>= f) c = .ok b c') : ∃ a m, d c = .ok a m ∧ f a m = .ok b c' := by
  rw [bind_apply] at h
  split at h
  · next a m hd => exact ⟨a, m, hd, h⟩
  · simp at h

theorem map_ok {f : α → β} {d : Decoder α} {c c' : Cursor} {b : β} (h : (f <$> d) c = .ok b c') :
    ∃ a, d c = .ok a c' ∧ f a = b := by
  rw [← bind_pure_comp] at h
  obtain ⟨a, m, ha, h⟩ := bind_ok h
  obtain ⟨hb, rfl⟩ := EStateM.Result.ok.inj h
  exact ⟨a, ha, hb⟩

theorem map_error {f : α → β} {d : Decoder α} {c c' : Cursor} {e : DecodeError} :
    (f <$> d) c = .error e c' ↔ d c = .error e c' := by
  rw [map_apply]
  cases d c <;> simp

theorem bind_error {d : Decoder α} {f : α → Decoder β} {c c' : Cursor} {e : DecodeError}
    (h : (d >>= f) c = .error e c') :
    d c = .error e c' ∨ ∃ a m, d c = .ok a m ∧ f a m = .error e c' := by
  rw [bind_apply] at h
  split at h
  · next a m hd => exact .inr ⟨a, m, hd, h⟩
  · next e' m hd =>
    obtain ⟨rfl, rfl⟩ := EStateM.Result.error.inj h
    exact .inl hd

theorem NonGrowing.bind {d : Decoder α} {f : α → Decoder β} (hd : NonGrowing d)
    (hf : ∀ a, NonGrowing (f a)) : NonGrowing (d >>= f) := by
  intro c b c' h
  obtain ⟨a, m, h₁, h₂⟩ := bind_ok h
  exact Nat.le_trans (hf a h₂) (hd h₁)

theorem Advances.bind {d : Decoder α} {f : α → Decoder β} (hd : Advances d)
    (hf : ∀ a, NonGrowing (f a)) : Advances (d >>= f) := by
  intro c b c' h
  obtain ⟨a, m, h₁, h₂⟩ := bind_ok h
  exact Nat.lt_of_le_of_lt (hf a h₂) (hd h₁)

theorem NonGrowing.bind_advances {d : Decoder α} {f : α → Decoder β} (hd : NonGrowing d)
    (hf : ∀ a, Advances (f a)) : Advances (d >>= f) := by
  intro c b c' h
  obtain ⟨a, m, h₁, h₂⟩ := bind_ok h
  exact Nat.lt_of_lt_of_le (hf a h₂) (hd h₁)

theorem NonGrowing.map {d : Decoder α} (hd : NonGrowing d) (f : α → β) : NonGrowing (f <$> d) := by
  rw [← bind_pure_comp]
  exact hd.bind fun a => nonGrowing_pure (f a)

theorem Advances.map {d : Decoder α} (hd : Advances d) (f : α → β) : Advances (f <$> d) := by
  rw [← bind_pure_comp]
  exact hd.bind fun a => nonGrowing_pure (f a)

theorem nonGrowing_position : NonGrowing position := by
  intro c a c' h
  obtain ⟨_, rfl⟩ := EStateM.Result.ok.inj h
  exact Nat.le_refl _

theorem advances_failAt (offset : Nat) (cause : Cause) :
    Advances (failAt offset cause : Decoder α) :=
  fun _ _ _ h => nomatch h

theorem advances_fail (cause : Cause) : Advances (fail cause : Decoder α) :=
  fun _ _ _ h => nomatch h

theorem nonGrowing_report (e : Event) : NonGrowing (report e) := by
  intro c a c' h
  obtain ⟨_, rfl⟩ := EStateM.Result.ok.inj h
  exact Nat.le_refl _

theorem advances_byte : Advances byte := by
  intro c a c' h
  unfold byte at h
  split at h
  · simp at h
  · next b bs hb =>
    obtain ⟨_, rfl⟩ := EStateM.Result.ok.inj h
    simp [Cursor.left, hb]

theorem nonGrowing_bytes (n : Nat) : NonGrowing (bytes n) := by
  intro c a c' h
  simp only [bytes, List.splitAt_eq] at h
  split at h
  · obtain ⟨_, rfl⟩ := EStateM.Result.ok.inj h
    simp [Cursor.left]
  · simp at h

theorem nonGrowing_read (n : Nat) : NonGrowing (read n) := by
  intro c a c' h
  unfold read at h
  split at h
  · exact (advances_fail _).nonGrowing h
  · exact nonGrowing_bytes n h

theorem advances_marker (meaning? : UInt8 → Option α) (otherwise : UInt8 → Cause) :
    Advances (marker meaning? otherwise) := by
  refine nonGrowing_position.bind_advances fun offset => advances_byte.bind fun b => ?_
  split
  · exact nonGrowing_pure _
  · exact (advances_failAt _ _).nonGrowing

theorem NonGrowing.inSection {d : Decoder α} (hd : NonGrowing d) (id : SectionId) :
    NonGrowing (inSection id d) := by
  intro c a c' h
  unfold Decoder.inSection at h
  split at h
  · next b m hb =>
    obtain ⟨_, rfl⟩ := EStateM.Result.ok.inj h
    exact hd hb
  · simp at h

theorem NonGrowing.withBound {d : Decoder α} (hd : NonGrowing d) (bound : Nat) :
    NonGrowing (withBound bound d) := by
  intro c a c' h
  unfold Decoder.withBound at h
  split at h
  · next b m hb =>
    obtain ⟨_, rfl⟩ := EStateM.Result.ok.inj h
    have hle := hd hb
    exact hle
  · simp at h

end Decoder
end WasmBinary
