import WasmBinary.Proofs.Format.Repeat

/-! Loops, by the items that they take. From a cursor on there is only one way to go, so the place
where a loop stops decides what it answers. -/
namespace WasmBinary.Decoder

open Format

variable {α σ : Type} {d : Decoder α} {c m m' c' : Cursor} {as as' : List α}

namespace Steps

theorem exists_of_append (h : Steps d c (as ++ as') c') :
    ∃ m, Steps d c as m ∧ Steps d m as' c' := by
  induction as generalizing c with
  | nil => exact ⟨c, .nil c, h⟩
  | cons a as ih =>
    cases h with
    | cons head tail =>
      obtain ⟨m, hfirst, hrest⟩ := ih tail
      exact ⟨m, .cons head hfirst, hrest⟩

theorem exists_of_concat {a : α} (h : Steps d c (as ++ [a]) c') :
    ∃ m, Steps d c as m ∧ d m = .ok a c' := by
  obtain ⟨m, hfirst, hlast⟩ := h.exists_of_append
  cases hlast with
  | cons head tail =>
    cases tail
    exact ⟨m, hfirst, head⟩

theorem unique (h : Steps d c as m) (h' : Steps d c as m') : m = m' := by
  induction h with
  | nil c =>
    cases h'
    rfl
  | cons head _ ih =>
    cases h' with
    | cons head' tail' =>
      obtain ⟨-, rfl⟩ := EStateM.Result.ok.inj (head.symm.trans head')
      exact ih tail'

/-- Of two ways to go, one is the beginning of the other. -/
theorem prefix_or_prefix (h : Steps d c as m) (h' : Steps d c as' m') :
    as <+: as' ∨ as' <+: as := by
  induction h generalizing as' with
  | nil c => exact .inl List.nil_prefix
  | cons head _ ih =>
    cases h' with
    | nil => exact .inr List.nil_prefix
    | cons head' tail' =>
      obtain ⟨rfl, rfl⟩ := EStateM.Result.ok.inj (head.symm.trans head')
      rcases ih tail' with hp | hp
      · exact .inl (List.cons_prefix_cons.2 ⟨rfl, hp⟩)
      · exact .inr (List.cons_prefix_cons.2 ⟨rfl, hp⟩)

theorem exists_rest (h : Steps d c as m) (h' : Steps d c as' m') (hp : as <+: as') :
    ∃ rest, as' = as ++ rest ∧ Steps d m rest m' := by
  obtain ⟨rest, rfl⟩ := hp
  obtain ⟨m₁, hfirst, hrest⟩ := h'.exists_of_append
  rw [hfirst.unique h] at hrest
  exact ⟨rest, rfl, hrest⟩

theorem exists_of_prefix (h : Steps d c as' m') (hp : as <+: as') : ∃ m, Steps d c as m := by
  obtain ⟨rest, rfl⟩ := hp
  obtain ⟨m, hfirst, -⟩ := h.exists_of_append
  exact ⟨m, hfirst⟩

end Steps

theorem Follows.steps_of_each {G : Format α} (hd : Follows never G d) {bs rest : List UInt8}
    (h : Each G bs as) (hc : c.Honest) (hp : c.pending = bs ++ rest) :
    ∃ c', Steps d c as c' ∧ c.Passes bs c' := by
  induction h generalizing c with
  | nil => exact ⟨c, .nil c, .refl c⟩
  | cons head _ ih =>
    rw [List.append_assoc] at hp
    obtain ⟨m, hm, hpass⟩ := (hd.complete head).succeeds hc hp
    obtain ⟨c', htail, hpass'⟩ := ih (hpass.honest hc) (hpass.pending_eq hp)
    exact ⟨c', .cons hm htail, hpass.trans hpass'⟩

/-! ### Loops with a condition -/

section While

variable {more : Cursor → Bool} {hd : Advances d}

/-- The condition of a loop holds wherever one of the items begins. -/
def GoesOn (more : Cursor → Bool) (d : Decoder α) (c : Cursor) (as : List α) : Prop :=
  ∀ p m, p <+: as → p ≠ as → Steps d c p m → more m = true

theorem GoesOn.head {a : α} (h : GoesOn more d c (a :: as)) : more c = true :=
  h [] c List.nil_prefix (by simp) (.nil c)

theorem GoesOn.tail {a : α} (h : GoesOn more d c (a :: as)) (ha : d c = .ok a m) :
    GoesOn more d m as := by
  intro p m' hp hne hsteps
  exact h (a :: p) m' (List.cons_prefix_cons.2 ⟨rfl, hp⟩) (by simpa using hne) (.cons ha hsteps)

theorem collectWhile_of_steps (h : Steps d c as m) (hgo : GoesOn more d c as) :
    collectWhile more d hd c = ((as ++ ·) <$> collectWhile more d hd) m := by
  induction h with
  | nil c =>
    rw [map_apply]
    cases collectWhile more d hd c <;> rfl
  | @cons c m c' a as head _ ih =>
    rw [collectWhile_eq, if_pos hgo.head, bind_apply, head]
    dsimp only
    rw [map_apply, ih (hgo.tail head), map_apply, map_apply]
    cases collectWhile more d hd c' <;> rfl

private theorem goesOn_of_collectWhile (h : collectWhile more d hd c = .ok as c') :
    GoesOn more d c as := by
  induction as generalizing c with
  | nil =>
    intro p m hp hne
    exact absurd (List.prefix_nil.1 hp) hne
  | cons a as ih =>
    rw [collectWhile_eq] at h
    split at h
    · next hmore =>
      obtain ⟨a', m, ha, hrest⟩ := bind_ok h
      obtain ⟨as', hloop, hitems⟩ := map_ok hrest
      obtain ⟨rfl, rfl⟩ := List.cons.inj hitems
      intro p m₁ hp hne hsteps
      cases hsteps with
      | nil => exact hmore
      | cons head tail =>
        obtain ⟨rfl, hp'⟩ := List.cons_prefix_cons.1 hp
        obtain ⟨-, rfl⟩ := EStateM.Result.ok.inj (ha.symm.trans head)
        exact ih hloop _ _ hp' (by simpa using hne) tail
    · simp at h

/-- What a loop answers: the items up to the first place where its condition fails. -/
theorem collectWhile_eq_ok_iff : collectWhile more d hd c = .ok as c' ↔
    Steps d c as c' ∧ more c' = false ∧ GoesOn more d c as := by
  constructor
  · intro h
    obtain ⟨hsteps, hstop⟩ := steps_of_collectWhile h
    exact ⟨hsteps, hstop, goesOn_of_collectWhile h⟩
  · intro h
    obtain ⟨hsteps, hstop, hgo⟩ := h
    rw [collectWhile_of_steps hsteps hgo, map_apply, collectWhile_eq, if_neg (by simp [hstop])]
    simp

/-- What decoders do where the loop does not come has no influence on it. -/
theorem collectWhile_congr {d' : Decoder α} {hd' : Advances d'}
    (h : ∀ as m, Steps d c as m → more m = true → d' m = d m) :
    collectWhile more d' hd' c = collectWhile more d hd c := by
  generalize hn : c.left = n
  induction n using Nat.strongRecOn generalizing c with
  | ind n ih =>
    subst hn
    rw [collectWhile_eq, collectWhile_eq more d]
    split
    · next hmore =>
      rw [bind_apply, bind_apply, h [] c (.nil c) hmore]
      cases ha : d c with
      | error e m => rfl
      | ok a m =>
        have hrest := ih _ (hd ha) (fun as m' hsteps => h (a :: as) m' (.cons ha hsteps)) rfl
        dsimp only
        rw [map_apply, map_apply, hrest]
    · rfl

end While

/-! ### Loops with a closing item -/

section Until

variable {next? : σ → α → Option σ} {hd : Advances d}

private theorem collectUntil_eq_ok {s : σ} (h : collectUntil next? d hd s c = .ok as c') :
    ∃ a m, d c = .ok a m ∧ ((next? s a = none ∧ as = [a] ∧ c' = m) ∨
      ∃ t rest, next? s a = some t ∧ as = a :: rest ∧
        collectUntil next? d hd t m = .ok rest c') := by
  rw [collectUntil_eq] at h
  obtain ⟨a, m, ha, h⟩ := bind_ok h
  refine ⟨a, m, ha, ?_⟩
  cases hs : next? s a with
  | none =>
    rw [hs] at h
    obtain ⟨rfl, rfl⟩ := EStateM.Result.ok.inj h
    exact .inl ⟨rfl, rfl, rfl⟩
  | some t =>
    rw [hs] at h
    obtain ⟨rest, hrest, rfl⟩ := map_ok h
    exact .inr ⟨t, rest, rfl, rfl, hrest⟩

theorem collectUntil_eq_ok_iff {s : σ} : collectUntil next? d hd s c = .ok as c' ↔
    Steps d c as c' ∧ Closes next? s as := by
  constructor
  · intro h
    induction as generalizing c s with
    | nil =>
      obtain ⟨a, m, -, ⟨-, hnil, -⟩ | ⟨t, rest, -, hnil, -⟩⟩ := collectUntil_eq_ok h
      · cases hnil
      · cases hnil
    | cons a as ih =>
      obtain ⟨a', m, ha, ⟨hs, has, rfl⟩ | ⟨t, rest, hs, has, hrest⟩⟩ := collectUntil_eq_ok h
      · obtain ⟨rfl, rfl⟩ := List.cons.inj has
        exact ⟨.cons ha (.nil _), by simp [Closes, hs]⟩
      · obtain ⟨rfl, rfl⟩ := List.cons.inj has
        obtain ⟨htail, hcloses⟩ := ih hrest
        exact ⟨.cons ha htail, by simpa [Closes, hs] using hcloses⟩
  · intro h
    obtain ⟨hsteps, hcloses⟩ := h
    induction hsteps generalizing s with
    | nil c => exact hcloses.elim
    | @cons c m c' a as head tail ih =>
      rw [collectUntil_eq, bind_apply, head]
      dsimp only
      cases hs : next? s a with
      | none =>
        simp only [Closes, hs] at hcloses
        subst hcloses
        cases tail
        rfl
      | some t =>
        simp only [Closes, hs] at hcloses
        dsimp only
        rw [map_apply, ih hcloses]

theorem steps_of_collectUntil_error {s : σ} {e : DecodeError}
    (h : collectUntil next? d hd s c = .error e c') :
    ∃ as m, Steps d c as m ∧ d m = .error e c' := by
  generalize hn : c.left = n
  induction n using Nat.strongRecOn generalizing c s with
  | ind n ih =>
    subst hn
    rw [collectUntil_eq] at h
    rcases bind_error h with h | ⟨a, m, ha, h⟩
    · exact ⟨[], c, .nil c, h⟩
    · cases hs : next? s a with
      | none =>
        rw [hs] at h
        cases h
      | some t =>
        rw [hs] at h
        obtain ⟨as, m', hsteps, herror⟩ := ih _ (hd ha) (map_error.1 h) rfl
        exact ⟨a :: as, m', .cons ha hsteps, herror⟩

end Until

end WasmBinary.Decoder
