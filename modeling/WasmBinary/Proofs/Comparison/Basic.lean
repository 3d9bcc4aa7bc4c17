import WasmBinary.Decoder.Repeat
import WasmBinary.Leb128

/-! Two runs side by side, on cursors that need not stand at the same place: which relations between
cursors all decoders respect, and what a respected relation says about the outcomes. -/
namespace WasmBinary

open Decoder

def DecodeError.moved (n : Nat) (e : DecodeError) : DecodeError :=
  { e with offset := e.offset + n }

/-- How the cursors of two runs are related, how far apart they stand, and which failures of one run
end the comparison. -/
structure Comparison where
  related : Cursor → Cursor → Prop
  shift : Nat
  excusesFirst : Cause → Prop
  excusesSecond : Cause → Prop

def Decoder.mapError {α : Type} (f : DecodeError → DecodeError) :
    EStateM.Result DecodeError Cursor α → EStateM.Result DecodeError Cursor α
  | .ok a c => .ok a c
  | .error e c => .error (f e) c

theorem Decoder.inSection_apply {α : Type} (id : SectionId) (d : Decoder α) (c : Cursor) :
    inSection id d c = mapError (·.inSection id) (d c) := by
  unfold inSection
  cases d c <;> rfl

namespace Comparison

variable {α β γ δ : Type}

/-- Both runs succeed with related values, or both fail with the same error, or one of them fails
with an error that ends the comparison. -/
def Outcome (S : Comparison) (R : α → β → Prop) :
    EStateM.Result DecodeError Cursor α → EStateM.Result DecodeError Cursor β → Prop
  | .ok a c, .ok b c' => R a b ∧ S.related c c'
  | .error e _, .error e' _ =>
    e' = e.moved S.shift ∨ S.excusesFirst e.cause ∨ S.excusesSecond e'.cause
  | .error e _, .ok _ _ => S.excusesFirst e.cause
  | .ok _ _, .error e' _ => S.excusesSecond e'.cause

/-- Related cursors lead to such outcomes. -/
def Agree (S : Comparison) (R : α → β → Prop) (d : Decoder α) (d' : Decoder β) : Prop :=
  ∀ ⦃c c'⦄, S.related c c' → S.Outcome R (d c) (d' c')

variable {S : Comparison} {R : α → β → Prop} {Q : γ → δ → Prop}

theorem outcome_of_excusesFirst {e : DecodeError} (h : S.excusesFirst e.cause) (c : Cursor)
    (r : EStateM.Result DecodeError Cursor β) : S.Outcome R (.error e c) r := by
  cases r with
  | ok b c' => exact h
  | error e' c' => exact .inr (.inl h)

theorem outcome_of_excusesSecond {e' : DecodeError} (h : S.excusesSecond e'.cause) (c' : Cursor)
    (r : EStateM.Result DecodeError Cursor α) : S.Outcome R r (.error e' c') := by
  cases r with
  | ok a c => exact h
  | error e c => exact .inr (.inr h)

theorem Outcome.exists_ok {a : α} {c : Cursor} {r : EStateM.Result DecodeError Cursor β}
    (h : S.Outcome R (.ok a c) r) (hsecond : ∀ cause, ¬ S.excusesSecond cause) :
    ∃ b c', r = .ok b c' ∧ R a b ∧ S.related c c' := by
  cases r with
  | ok b c' => exact ⟨b, c', rfl, h⟩
  | error e' c' => exact absurd h (hsecond _)

theorem Outcome.exists_error {e : DecodeError} {c : Cursor}
    {r : EStateM.Result DecodeError Cursor β} (h : S.Outcome R (.error e c) r)
    (hfirst : ¬ S.excusesFirst e.cause) (hsecond : ∀ cause, ¬ S.excusesSecond cause) :
    ∃ c', r = .error (e.moved S.shift) c' := by
  cases r with
  | ok b c' => exact absurd h hfirst
  | error e' c' =>
    rcases h with hsame | hexcused | hexcused
    · exact ⟨c', by rw [hsame]⟩
    · exact absurd hexcused hfirst
    · exact absurd hexcused (hsecond _)

theorem outcome_bind {d : Decoder α} {d' : Decoder β} {f : α → Decoder γ} {f' : β → Decoder δ}
    {c c' : Cursor} (h : S.Outcome R (d c) (d' c'))
    (hf : ∀ a b m m', d c = .ok a m → R a b → S.related m m' → S.Outcome Q (f a m) (f' b m')) :
    S.Outcome Q ((d >>= f) c) ((d' >>= f') c') := by
  rw [bind_apply, bind_apply]
  cases hd : d c with
  | ok a m =>
    rw [hd] at h
    cases hd' : d' c' with
    | ok b m' =>
      rw [hd'] at h
      exact hf a b m m' hd h.1 h.2
    | error e' m' =>
      rw [hd'] at h
      exact outcome_of_excusesSecond h m' _
  | error e m =>
    rw [hd] at h
    cases hd' : d' c' with
    | ok b m' =>
      rw [hd'] at h
      exact outcome_of_excusesFirst h m _
    | error e' m' =>
      rw [hd'] at h
      exact h

theorem outcome_map {d : Decoder α} {d' : Decoder β} {f : α → γ} {f' : β → δ} {c c' : Cursor}
    (h : S.Outcome R (d c) (d' c')) (hf : ∀ a b, R a b → Q (f a) (f' b)) :
    S.Outcome Q ((f <$> d) c) ((f' <$> d') c') := by
  rw [← bind_pure_comp, ← bind_pure_comp]
  exact outcome_bind h fun a b m m' _ hab hm => ⟨hf a b hab, hm⟩

theorem outcome_mapError {f f' : DecodeError → DecodeError}
    (hmoved : ∀ e, f' (e.moved S.shift) = (f e).moved S.shift)
    (hfirst : ∀ e, S.excusesFirst e.cause → S.excusesFirst (f e).cause)
    (hsecond : ∀ e, S.excusesSecond e.cause → S.excusesSecond (f' e).cause)
    {r : EStateM.Result DecodeError Cursor α} {r' : EStateM.Result DecodeError Cursor β}
    (h : S.Outcome R r r') : S.Outcome R (mapError f r) (mapError f' r') := by
  cases r with
  | ok a c =>
    cases r' with
    | ok b c' => exact h
    | error e' c' => exact hsecond e' h
  | error e c =>
    cases r' with
    | ok b c' => exact hfirst e h
    | error e' c' =>
      rcases h with h | h | h
      · exact .inl (h ▸ hmoved e)
      · exact .inr (.inl (hfirst e h))
      · exact .inr (.inr (hsecond e' h))

theorem Agree.bind {d : Decoder α} {d' : Decoder β} {f : α → Decoder γ} {f' : β → Decoder δ}
    (hd : S.Agree R d d') (hf : ∀ a b, R a b → S.Agree Q (f a) (f' b)) :
    S.Agree Q (d >>= f) (d' >>= f') := by
  intro c c' h
  exact outcome_bind (hd h) fun a b m m' _ hab hm => hf a b hab hm

/-- Where the values are equal there is one continuation for each. -/
theorem Agree.bind_eq {d d' : Decoder α} {f : α → Decoder γ} {f' : α → Decoder δ}
    (hd : S.Agree Eq d d') (hf : ∀ a, S.Agree Q (f a) (f' a)) :
    S.Agree Q (d >>= f) (d' >>= f') := by
  refine hd.bind fun a b hab => ?_
  subst hab
  exact hf a

theorem agree_pure {a : α} {b : β} (h : R a b) : S.Agree R (pure a) (pure b) :=
  fun _ _ hc => ⟨h, hc⟩

theorem Agree.map {d : Decoder α} {d' : Decoder β} (hd : S.Agree R d d') {f : α → γ} {f' : β → δ}
    (hf : ∀ a b, R a b → Q (f a) (f' b)) : S.Agree Q (f <$> d) (f' <$> d') :=
  fun _ _ h => outcome_map (hd h) hf

theorem agree_failAt (offset : Nat) (cause : Cause) :
    S.Agree R (failAt offset cause) (failAt (offset + S.shift) cause) :=
  fun _ _ _ => .inl rfl

theorem Agree.inSection {d : Decoder α} {d' : Decoder β} (hd : S.Agree R d d') (id : SectionId) :
    S.Agree R (inSection id d) (inSection id d') := by
  intro c c' h
  rw [inSection_apply, inSection_apply]
  refine outcome_mapError ?_ ?_ ?_ (hd h)
  · intro e
    rfl
  · intro e he
    exact he
  · intro e he
    exact he

end Comparison

/-- A comparison that all decoders respect: cursors stay related under what a decoder may do with
them. -/
structure Simulation extends Comparison where
  position : ∀ {c c'}, related c c' → c'.position = c.position + shift
  log : ∀ {c c'}, related c c' → ∀ log log', related { c with log := log } { c' with log := log' }
  byte : toComparison.Agree Eq byte byte
  bytes : ∀ n, toComparison.Agree Eq (bytes n) (bytes n)
  read : ∀ n, toComparison.Agree Eq (read n) (read n)
  enter : ∀ {c c'}, related c c' → ∀ bound,
    related { c with bound := min bound c.totalSize }
      { c' with bound := min (bound + shift) c'.totalSize }
  leave : ∀ {c c' m m'}, related c c' → related m m' →
    related { m with bound := c.bound } { m' with bound := c'.bound }
  /-- Where only the first cursor is at its bound, a body that it cuts off is excused. -/
  bound : ∀ {c c'}, related c c' → (c.position < c.bound ↔ c'.position < c'.bound) ∨
    (c.bound ≤ c.position ∧
      ∀ declared consumed, excusesFirst (.bodySizeMismatch declared consumed))
  /-- An integer that the end of the stream cuts off is excused if the end is. -/
  truncatedFirst : ∀ {n}, excusesFirst (.unexpectedEnd n) →
    ∀ width, excusesFirst (.malformedInteger width .truncated)
  truncatedSecond : ∀ {n}, excusesSecond (.unexpectedEnd n) →
    ∀ width, excusesSecond (.malformedInteger width .truncated)

namespace Simulation

open Comparison

variable {α β σ : Type} (S : Simulation) {R : α → β → Prop}

theorem agree_position : S.Agree (fun n n' => n' = n + S.shift) Decoder.position Decoder.position :=
  fun _ _ h => ⟨S.position h, h⟩

theorem agree_position_bind {f : Nat → Decoder α} {f' : Nat → Decoder β}
    (hf : ∀ n, S.Agree R (f n) (f' (n + S.shift))) :
    S.Agree R (Decoder.position >>= f) (Decoder.position >>= f') := by
  refine S.agree_position.bind fun n n' hn => ?_
  subst hn
  exact hf n

theorem agree_fail (cause : Cause) : S.Agree R (fail cause) (fail cause) := by
  intro c c' h
  have hpos := S.position h
  exact .inl (by rw [DecodeError.moved, hpos])

theorem agree_report (e e' : Event) : S.Agree Eq (report e) (report e') :=
  fun _ _ h => ⟨rfl, S.log h _ _⟩

theorem agree_withBound {d : Decoder α} {d' : Decoder β} (hd : S.Agree R d d') (bound : Nat) :
    S.Agree R (withBound bound d) (withBound (bound + S.shift) d') := by
  intro c c' h
  have hd' := hd (S.enter h bound)
  unfold withBound
  revert hd'
  generalize d _ = r
  generalize d' _ = r'
  intro hd'
  cases r with
  | ok a m =>
    cases r' with
    | ok b m' => exact ⟨hd'.1, S.leave h hd'.2⟩
    | error e' m' => exact hd'
  | error e m =>
    cases r' with
    | ok b m' => exact hd'
    | error e' m' => exact hd'

theorem agree_marker (meaning? : UInt8 → Option α) (otherwise : UInt8 → Cause) :
    S.Agree Eq (marker meaning? otherwise) (marker meaning? otherwise) := by
  unfold marker
  refine S.agree_position_bind fun offset => S.byte.bind_eq fun b => ?_
  cases meaning? b with
  | some a => exact agree_pure rfl
  | none => exact agree_failAt offset (otherwise b)

theorem agree_timesFrom {d : Nat → Decoder α} (hd : ∀ i, S.Agree Eq (d i) (d i))
    (index count : Nat) (items : List α) :
    S.Agree Eq (timesFrom d index count items) (timesFrom d index count items) := by
  induction count generalizing index items with
  | zero => exact agree_pure rfl
  | succ count ih => exact (hd index).bind_eq fun a => ih (index + 1) (a :: items)

theorem agree_times {d : Nat → Decoder α} (hd : ∀ i, S.Agree Eq (d i) (d i)) (count : Nat) :
    S.Agree Eq (times count d) (times count d) :=
  S.agree_timesFrom hd 0 count []

theorem agree_collectWhile {d : Decoder α} (hd : Advances d) {f : α → α}
    (h : S.Agree (fun a b => b = f a) d d) {more more' : Cursor → Bool}
    (hmore : ∀ {c c'}, S.related c c' → more c = more' c') :
    S.Agree (fun as bs => bs = as.map f) (collectWhile more d hd) (collectWhile more' d hd) := by
  intro c c' hc
  generalize hn : c.left = n
  induction n using Nat.strongRecOn generalizing c c' with
  | ind n ih =>
    subst hn
    rw [collectWhile_eq, collectWhile_eq, ← hmore hc]
    split
    · refine outcome_bind (h hc) fun a b m m' ha hab hm => ?_
      refine outcome_map (ih _ (hd ha) hm rfl) fun as bs has => ?_
      rw [has, hab, List.map_cons]
    · exact ⟨rfl, hc⟩

/-- A loop that goes on at least as long as one of the first run fails where that one fails, unless
the failure is excused. -/
theorem collectWhile_error {d : Decoder α} (hd : Advances d) {Q : α → α → Prop} (h : S.Agree Q d d)
    {more more' : Cursor → Bool}
    (hmore : ∀ {c c'}, S.related c c' → more c = true → more' c' = true)
    (hsecond : ∀ cause, ¬ S.excusesSecond cause) {c c' m : Cursor} (hc : S.related c c')
    {e : DecodeError} (he : collectWhile more d hd c = .error e m)
    (hfirst : ¬ S.excusesFirst e.cause) :
    ∃ m', collectWhile more' d hd c' = .error (e.moved S.shift) m' := by
  generalize hn : c.left = n
  induction n using Nat.strongRecOn generalizing c c' with
  | ind n ih =>
    subst hn
    rw [collectWhile_eq] at he
    split at he
    · next hgo =>
      have hagree := h hc
      rw [collectWhile_eq, if_pos (hmore hc hgo), bind_apply]
      rcases bind_error he with hlast | ⟨a, m₁, ha, hrest⟩
      · rw [hlast] at hagree
        obtain ⟨m', hm'⟩ := hagree.exists_error hfirst hsecond
        exact ⟨m', by rw [hm']⟩
      · rw [ha] at hagree
        obtain ⟨b, m₁', hb, -, hm₁⟩ := hagree.exists_ok hsecond
        obtain ⟨m', hm'⟩ := ih _ (hd ha) hm₁ (map_error.1 hrest) rfl
        rw [hb]
        exact ⟨m', map_error.2 hm'⟩
    · simp at he

theorem agree_collectUntil {d : Decoder α} (hd : Advances d) (h : S.Agree Eq d d)
    (next? : σ → α → Option σ) (s : σ) :
    S.Agree Eq (collectUntil next? d hd s) (collectUntil next? d hd s) := by
  intro c c' hc
  generalize hn : c.left = n
  induction n using Nat.strongRecOn generalizing c c' s with
  | ind n ih =>
    subst hn
    rw [collectUntil_eq]
    refine outcome_bind (h hc) fun a b m m' ha hab hm => ?_
    subst hab
    cases hs : next? s a with
    | none => exact ⟨rfl, hm⟩
    | some t => exact outcome_map (ih _ (hd ha) t hm rfl) fun as bs has => by rw [has]

end Simulation
end WasmBinary
