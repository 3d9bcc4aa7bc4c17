import WasmBinary.Decoder.Progress

/-! Formats, which say what bytes stand for, and what it means that a decoder follows one: it
succeeds on the bytes of the format and on no others, and takes exactly those. -/
namespace WasmBinary

/-- Which bytes encode which values. -/
abbrev Format (α : Type) := List UInt8 → α → Prop

namespace Cursor

/-- The stream delivers exactly the bytes that it seemed to hold. -/
def Honest (c : Cursor) : Prop :=
  c.position + c.pending.length = c.totalSize

/-- `c'` stands where `c` will stand once it has read `bs`. The logs may differ. -/
structure Passes (c : Cursor) (bs : List UInt8) (c' : Cursor) : Prop where
  pending : c.pending = bs ++ c'.pending
  position : c'.position = c.position + bs.length
  stop : c'.stop = c.stop
  totalSize : c'.totalSize = c.totalSize
  bound : c'.bound = c.bound

theorem Passes.refl (c : Cursor) : c.Passes [] c :=
  ⟨rfl, rfl, rfl, rfl, rfl⟩

theorem Passes.trans {c m c' : Cursor} {bs cs : List UInt8} (h : c.Passes bs m)
    (h' : m.Passes cs c') : c.Passes (bs ++ cs) c' where
  pending := by rw [h.pending, h'.pending, List.append_assoc]
  position := by rw [h'.position, h.position, List.length_append, Nat.add_assoc]
  stop := h'.stop.trans h.stop
  totalSize := h'.totalSize.trans h.totalSize
  bound := h'.bound.trans h.bound

theorem Passes.honest {c c' : Cursor} {bs : List UInt8} (h : c.Passes bs c') (hc : c.Honest) :
    c'.Honest := by
  have hp := congrArg List.length h.pending
  have hpos := h.position
  have htotal := h.totalSize
  rw [List.length_append] at hp
  unfold Honest at hc ⊢
  omega

theorem Passes.pending_eq {c c' : Cursor} {bs rest : List UInt8} (h : c.Passes bs c')
    (hc : c.pending = bs ++ rest) : c'.pending = rest :=
  List.append_cancel_left (h.pending.symm.trans hc)

theorem passes_of_pending {c : Cursor} {bs rest : List UInt8} (h : c.pending = bs ++ rest) :
    c.Passes bs { c with pending := rest, position := c.position + bs.length } :=
  ⟨h, rfl, rfl, rfl, rfl⟩

theorem Honest.length_le {c : Cursor} (hc : c.Honest) {bs rest : List UInt8}
    (h : c.pending = bs ++ rest) : c.position + bs.length ≤ c.totalSize := by
  have hl := congrArg List.length h
  rw [List.length_append] at hl
  unfold Honest at hc
  omega

end Cursor

namespace Format

variable {α β : Type}

def pure (a : α) : Format α := fun bs x =>
  bs = [] ∧ x = a

/-- The bytes of a first value and then those of a second one, whose format may depend on the
first. -/
def bind (G : Format α) (H : α → Format β) : Format β := fun bs b =>
  ∃ bs₁ bs₂ a, bs = bs₁ ++ bs₂ ∧ G bs₁ a ∧ H a bs₂ b

def map (f : α → β) (G : Format α) : Format β := fun bs b =>
  ∃ a, G bs a ∧ f a = b

def marker (meaning? : UInt8 → Option α) : Format α := fun bs a =>
  ∃ b, bs = [b] ∧ meaning? b = some a

end Format

namespace Decoder

variable {α β γ : Type}

/-- Before the bytes `bs`, and whatever follows them, `d` takes exactly these and answers `a`. There
is one way out: if the bytes reach past the bound, `d` may fail with one of the errors `E`. -/
def Accepts (E : DecodeError → Prop) (d : Decoder α) (bs : List UInt8) (a : α) : Prop :=
  ∀ ⦃c rest⦄, c.Honest → c.pending = bs ++ rest →
    (∃ c', d c = .ok a c' ∧ c.Passes bs c') ∨
      (c.bound < c.position + bs.length ∧ ∃ e c', d c = .error e c' ∧ E e)

/-- `d` succeeds on the bytes of `G` and on no others. -/
structure Follows (E : DecodeError → Prop) (G : Format α) (d : Decoder α) : Prop where
  sound : ∀ ⦃c a c'⦄, d c = .ok a c' → ∃ bs, c.Passes bs c' ∧ G bs a
  complete : ∀ ⦃bs a⦄, G bs a → Accepts E d bs a

def never (_ : DecodeError) : Prop :=
  False

variable {E : DecodeError → Prop} {G : Format α}

theorem Accepts.succeeds {d : Decoder α} {bs rest : List UInt8} {a : α}
    (h : Accepts never d bs a) {c : Cursor} (hc : c.Honest) (hp : c.pending = bs ++ rest) :
    ∃ c', d c = .ok a c' ∧ c.Passes bs c' := by
  obtain hok | ⟨_, _, _, _, hE⟩ := h hc hp
  · exact hok
  · exact hE.elim

theorem accepts_pure (a : α) : Accepts E (pure a) [] a :=
  fun c _ _ _ => .inl ⟨c, rfl, .refl c⟩

theorem Accepts.bind {d : Decoder α} {f : α → Decoder β} {bs₁ bs₂ : List UInt8} {a : α} {b : β}
    (hd : Accepts E d bs₁ a) (hf : Accepts E (f a) bs₂ b) :
    Accepts E (d >>= f) (bs₁ ++ bs₂) b := by
  intro c rest hc hp
  rw [List.append_assoc] at hp
  rw [List.length_append, bind_apply]
  obtain ⟨m, h₁, hp₁⟩ | ⟨hlt, e, c', he, hE⟩ := hd hc hp
  · have hpos := hp₁.position
    have hbound := hp₁.bound
    rw [h₁]
    obtain ⟨c', h₂, hp₂⟩ | ⟨hlt, herr⟩ := hf (hp₁.honest hc) (hp₁.pending_eq hp)
    · exact .inl ⟨c', h₂, hp₁.trans hp₂⟩
    · exact .inr ⟨by omega, herr⟩
  · rw [he]
    exact .inr ⟨by omega, e, c', rfl, hE⟩

theorem Accepts.map {d : Decoder α} {bs : List UInt8} {a : α} (hd : Accepts E d bs a)
    (f : α → β) : Accepts E (f <$> d) bs (f a) := by
  rw [← bind_pure_comp, ← List.append_nil bs]
  exact hd.bind (accepts_pure (f a))

theorem Follows.congr {d : Decoder α} {G' : Format α} (h : Follows E G d)
    (hG : ∀ bs a, G' bs a ↔ G bs a) : Follows E G' d where
  sound c a c' hd := by
    obtain ⟨bs, hp, hg⟩ := h.sound hd
    exact ⟨bs, hp, (hG bs a).2 hg⟩
  complete bs a hg := h.complete ((hG bs a).1 hg)

theorem follows_pure (a : α) : Follows E (.pure a) (pure a) where
  sound c x c' h := by
    obtain ⟨rfl, rfl⟩ := EStateM.Result.ok.inj h
    exact ⟨[], .refl c, rfl, rfl⟩
  complete bs x hG := by
    obtain ⟨rfl, rfl⟩ := hG
    exact accepts_pure x

theorem Follows.bind {d : Decoder α} {f : α → Decoder β} {H : α → Format β} (hd : Follows E G d)
    (hf : ∀ a, Follows E (H a) (f a)) : Follows E (G.bind H) (d >>= f) where
  sound c b c' h := by
    obtain ⟨a, m, h₁, h₂⟩ := bind_ok h
    obtain ⟨bs₁, hp₁, hG⟩ := hd.sound h₁
    obtain ⟨bs₂, hp₂, hH⟩ := (hf a).sound h₂
    exact ⟨bs₁ ++ bs₂, hp₁.trans hp₂, bs₁, bs₂, a, rfl, hG, hH⟩
  complete bs b hG := by
    obtain ⟨bs₁, bs₂, a, rfl, hG, hH⟩ := hG
    exact (hd.complete hG).bind ((hf a).complete hH)

theorem Follows.map {d : Decoder α} (hd : Follows E G d) (f : α → β) :
    Follows E (G.map f) (f <$> d) where
  sound c b c' h := by
    rw [map_apply] at h
    split at h
    · next a m hm =>
      obtain ⟨rfl, rfl⟩ := EStateM.Result.ok.inj h
      obtain ⟨bs, hp, hG⟩ := hd.sound hm
      exact ⟨bs, hp, a, hG, rfl⟩
    · simp at h
  complete bs b hG := by
    obtain ⟨a, hG, rfl⟩ := hG
    exact (hd.complete hG).map f

/-- A conversion that loses no value of the format, read backwards. -/
theorem Follows.mapInverse {d : Decoder α} {f : α → β} {g : β → α} (hd : Follows E G d)
    (hf : ∀ b, f (g b) = b) (hg : ∀ bs a, G bs a → g (f a) = a) :
    Follows E (fun bs b => G bs (g b)) (f <$> d) := by
  refine (hd.map f).congr fun bs b => ?_
  constructor
  · intro h
    exact ⟨g b, h, hf b⟩
  · intro h
    obtain ⟨a, ha, rfl⟩ := h
    rwa [hg bs a ha]

theorem Follows.pair {d : Decoder α} {d' : Decoder β} {H : Format β} (hd : Follows E G d)
    (hd' : Follows E H d') (f : α → β → γ) :
    Follows E (fun bs x => ∃ bs₁ bs₂ a b, bs = bs₁ ++ bs₂ ∧ G bs₁ a ∧ H bs₂ b ∧ x = f a b)
      (d >>= fun a => d' >>= fun b => pure (f a b)) := by
  refine (hd.bind fun a => hd'.bind fun b => follows_pure (f a b)).congr fun bs x => ?_
  constructor
  · intro h
    obtain ⟨bs₁, bs₂, a, b, hbs, ha, hb, hx⟩ := h
    exact ⟨bs₁, bs₂, a, hbs, ha, bs₂, [], b, by simp, hb, rfl, hx⟩
  · intro h
    obtain ⟨bs₁, bs₂, a, hbs, ha, bs₃, bs₄, b, hbs', hb, hnil, hx⟩ := h
    exact ⟨bs₁, bs₃, a, b, by rw [hbs, hbs', hnil, List.append_nil], ha, hb, hx⟩

/-- Where a decoder stands does not matter if only its errors speak of it. -/
theorem Follows.position {f : Nat → Decoder α} (h : ∀ n, Follows E G (f n)) :
    Follows E G (position >>= f) where
  sound c _ _ hd := (h c.position).sound hd
  complete _ _ hG c _ hc hp := (h c.position).complete hG hc hp

theorem Follows.report {d : Decoder α} (h : Follows E G d) (event : Event) :
    Follows E G (report event >>= fun _ => d) where
  sound c a c' hd := by
    obtain ⟨bs, hp, hG⟩ := h.sound hd
    exact ⟨bs, ⟨hp.pending, hp.position, hp.stop, hp.totalSize, hp.bound⟩, hG⟩
  complete bs a hG c rest hc hp := by
    obtain ⟨c', hok, hp'⟩ | herr := h.complete hG (c := { c with log := c.log.push event }) hc hp
    · exact .inl ⟨c', hok, hp'.pending, hp'.position, hp'.stop, hp'.totalSize, hp'.bound⟩
    · exact .inr herr

theorem follows_failAt (offset : Nat) (cause : Cause) :
    Follows E (fun _ _ => False) (failAt offset cause : Decoder α) where
  sound _ _ _ h := nomatch h
  complete _ _ h := h.elim

theorem follows_fail (cause : Cause) :
    Follows E (fun _ _ => False) (fail cause : Decoder α) where
  sound _ _ _ h := nomatch h
  complete _ _ h := h.elim

theorem follows_byte : Follows E (fun bs b => bs = [b]) byte where
  sound c b c' h := by
    unfold byte at h
    split at h
    · simp at h
    · next x xs hx =>
      obtain ⟨rfl, rfl⟩ := EStateM.Result.ok.inj h
      exact ⟨[x], ⟨hx, rfl, rfl, rfl, rfl⟩, rfl⟩
  complete bs b hG c rest _ hp := by
    subst hG
    refine .inl ⟨_, ?_, Cursor.passes_of_pending hp⟩
    unfold byte
    rw [hp]
    rfl

theorem bytes_eq_ok {c : Cursor} {bs rest : List UInt8} (h : c.pending = bs ++ rest) :
    bytes bs.length c = .ok bs { c with pending := rest, position := c.position + bs.length } := by
  simp [bytes, List.splitAt_eq, h]

theorem bytes_cases (n : Nat) (c : Cursor) :
    (∃ bs rest, c.pending = bs ++ rest ∧ bs.length = n ∧
      bytes n c = .ok bs { c with pending := rest, position := c.position + n }) ∨
    (c.pending.length < n ∧
      bytes n c = .error ⟨c.stop.cause n, c.position, none⟩ { c with pending := [] }) := by
  by_cases hn : n ≤ c.pending.length
  · have hlen : (c.pending.take n).length = n := List.length_take_of_le hn
    have hsplit : c.pending = c.pending.take n ++ c.pending.drop n :=
      (List.take_append_drop n c.pending).symm
    have hok := bytes_eq_ok hsplit
    rw [hlen] at hok
    exact .inl ⟨_, _, hsplit, hlen, hok⟩
  · have hlen : (c.pending.take n).length ≠ n := by
      rw [List.length_take]
      omega
    refine .inr ⟨Nat.lt_of_not_le hn, ?_⟩
    simp only [bytes, List.splitAt_eq]
    rw [if_neg hlen]

theorem bytes_eq_error {n : Nat} {c c' : Cursor} {e : DecodeError} (h : bytes n c = .error e c') :
    e = ⟨c.stop.cause n, c.position, none⟩ ∧ c' = { c with pending := [] } ∧
      c.pending.length < n := by
  rcases bytes_cases n c with ⟨bs, rest, -, -, hok⟩ | ⟨hshort, herror⟩
  · rw [hok] at h
    cases h
  · obtain ⟨rfl, rfl⟩ := EStateM.Result.error.inj (herror.symm.trans h)
    exact ⟨rfl, rfl, hshort⟩

theorem follows_bytes (n : Nat) : Follows E (fun bs a => bs = a ∧ a.length = n) (bytes n) where
  sound c a c' h := by
    simp only [bytes, List.splitAt_eq] at h
    split at h
    · next hn =>
      obtain ⟨rfl, rfl⟩ := EStateM.Result.ok.inj h
      exact ⟨c.pending.take n, ⟨by simp, by rw [hn], rfl, rfl, rfl⟩, rfl, hn⟩
    · simp at h
  complete bs a hG c rest _ hp := by
    obtain ⟨rfl, rfl⟩ := hG
    exact .inl ⟨_, bytes_eq_ok hp, Cursor.passes_of_pending hp⟩

theorem follows_read (n : Nat) : Follows E (fun bs a => bs = a ∧ a.length = n) (read n) where
  sound c a c' h := by
    unfold read at h
    split at h
    · exact nomatch h
    · exact (follows_bytes (E := E) n).sound h
  complete bs a hG c rest hc hp := by
    have hle := hc.length_le hp
    have hlen : bs.length = n := hG.1 ▸ hG.2
    have hread : read n c = bytes n c := by
      unfold read Cursor.remaining
      rw [if_neg (by omega)]
    rw [hread]
    exact (follows_bytes n).complete hG hc hp

theorem follows_marker (meaning? : UInt8 → Option α) (otherwise : UInt8 → Cause) :
    Follows E (.marker meaning?) (marker meaning? otherwise) := by
  unfold Decoder.marker
  refine .position fun offset => ?_
  refine (Follows.bind (H := fun b bs a => bs = [] ∧ meaning? b = some a) follows_byte
    fun b => ?_).congr fun bs a => ⟨?_, ?_⟩
  · cases h : meaning? b with
    | some a => exact (follows_pure a).congr fun bs x => by simp [Format.pure, eq_comm]
    | none => exact (follows_failAt _ _).congr fun bs x => by simp
  · intro h
    obtain ⟨b, rfl, hb⟩ := h
    exact ⟨[b], [], b, rfl, rfl, rfl, hb⟩
  · intro h
    obtain ⟨_, _, b, rfl, rfl, rfl, hb⟩ := h
    exact ⟨b, rfl, hb⟩

end Decoder
end WasmBinary
