import WasmBinary.Decoder.Progress

/-! Repetition: a given number of times, while a condition holds, or up to a closing item. The
last two end because the repeated decoder advances. -/
namespace WasmBinary.Decoder

variable {α σ : Type}

/-- The items with the numbers `index`, `index + 1`, ..., `count` of them, after those in `items`
(latest first). -/
def timesFrom (d : Nat → Decoder α) : (index count : Nat) → (items : List α) → Decoder (List α)
  | _, 0, items => pure items.reverse
  | index, count + 1, items => do
    let a ← d index
    timesFrom d (index + 1) count (a :: items)

/-- The items with the numbers from 0 up to `count`. -/
def times (count : Nat) (d : Nat → Decoder α) : Decoder (List α) :=
  timesFrom d 0 count []

/-- Goes on from `items` (latest first) while `more` holds. -/
def collectWhileFrom (more : Cursor → Bool) (d : Decoder α) (hd : Advances d) (items : List α)
    (c : Cursor) : EStateM.Result DecodeError Cursor (List α) :=
  if more c then
    match _h : d c with
    | .error e c' => .error e c'
    | .ok a c' => collectWhileFrom more d hd (a :: items) c'
  else .ok items.reverse c
termination_by c.left
decreasing_by exact hd _h

/-- Items as long as `more` holds of the cursor before the next one. -/
def collectWhile (more : Cursor → Bool) (d : Decoder α) (hd : Advances d) : Decoder (List α) :=
  collectWhileFrom more d hd []

/-- Goes on from `items` (latest first) and the state `s`. -/
def collectUntilFrom (next? : σ → α → Option σ) (d : Decoder α) (hd : Advances d) (s : σ)
    (items : List α) (c : Cursor) : EStateM.Result DecodeError Cursor (List α) :=
  match _h : d c with
  | .error e c' => .error e c'
  | .ok a c' =>
    match next? s a with
    | none => .ok (a :: items).reverse c'
    | some s => collectUntilFrom next? d hd s (a :: items) c'
termination_by c.left
decreasing_by exact hd _h

/-- Items up to and including the first one after which there is no next state. -/
def collectUntil (next? : σ → α → Option σ) (d : Decoder α) (hd : Advances d) (s : σ) :
    Decoder (List α) :=
  collectUntilFrom next? d hd s []

private theorem timesFrom_eq (d : Nat → Decoder α) (index count : Nat) (items : List α) :
    timesFrom d index count items = (items.reverse ++ ·) <$> timesFrom d index count [] := by
  induction count generalizing index items with
  | zero => simp [timesFrom]
  | succ count ih =>
    simp only [timesFrom, map_bind]
    congr 1
    funext a
    rw [ih (index + 1) (a :: items), ih (index + 1) [a]]
    simp [Functor.map_map]

theorem timesFrom_succ (d : Nat → Decoder α) (index count : Nat) :
    timesFrom d index (count + 1) [] =
      d index >>= fun a => (a :: ·) <$> timesFrom d (index + 1) count [] := by
  rw [timesFrom]
  congr 1
  funext a
  exact timesFrom_eq d (index + 1) count [a]

private theorem collectWhileFrom_eq (more : Cursor → Bool) (d : Decoder α) (hd : Advances d)
    (items : List α) (c : Cursor) : collectWhileFrom more d hd items c =
      ((items.reverse ++ ·) <$> collectWhile more d hd) c := by
  generalize hn : c.left = n
  induction n using Nat.strongRecOn generalizing c items with
  | ind n ih =>
    subst hn
    rw [map_apply, collectWhile, collectWhileFrom, collectWhileFrom]
    split
    · split
      · rfl
      · next a c' h =>
        rw [ih _ (hd h) (a :: items) c' rfl, ih _ (hd h) [a] c' rfl, map_apply, map_apply]
        cases collectWhile more d hd c' <;> simp
    · simp

theorem collectWhile_eq (more : Cursor → Bool) (d : Decoder α) (hd : Advances d) (c : Cursor) :
    collectWhile more d hd c =
      if more c then (d >>= fun a => (a :: ·) <$> collectWhile more d hd) c else .ok [] c := by
  rw [collectWhile, collectWhileFrom]
  split
  · rw [bind_apply]
    split
    · next h => rw [h]
    · next a c' h => rw [h, collectWhileFrom_eq]; rfl
  · rfl

private theorem collectUntilFrom_eq (next? : σ → α → Option σ) (d : Decoder α) (hd : Advances d)
    (s : σ) (items : List α) (c : Cursor) : collectUntilFrom next? d hd s items c =
      ((items.reverse ++ ·) <$> collectUntil next? d hd s) c := by
  generalize hn : c.left = n
  induction n using Nat.strongRecOn generalizing c items s with
  | ind n ih =>
    subst hn
    rw [map_apply, collectUntil, collectUntilFrom, collectUntilFrom]
    split
    · rfl
    · next a c' h =>
      cases next? s a with
      | none => simp
      | some t =>
        dsimp only
        rw [ih _ (hd h) t (a :: items) c' rfl, ih _ (hd h) t [a] c' rfl, map_apply, map_apply]
        cases collectUntil next? d hd t c' <;> simp

theorem collectUntil_eq (next? : σ → α → Option σ) (d : Decoder α) (hd : Advances d) (s : σ) :
    collectUntil next? d hd s = d >>= fun a =>
      match next? s a with
      | none => pure [a]
      | some t => (a :: ·) <$> collectUntil next? d hd t := by
  funext c
  rw [collectUntil, collectUntilFrom, bind_apply]
  split
  · next h => rw [h]
  · next a c' h =>
    rw [h]
    dsimp only
    cases next? s a with
    | none => rfl
    | some t => exact collectUntilFrom_eq next? d hd t [a] c'

theorem nonGrowing_timesFrom {d : Nat → Decoder α} (hd : ∀ i, NonGrowing (d i))
    (index count : Nat) (items : List α) : NonGrowing (timesFrom d index count items) := by
  induction count generalizing index items with
  | zero => exact nonGrowing_pure _
  | succ count ih => exact (hd index).bind fun a => ih (index + 1) (a :: items)

theorem nonGrowing_times {d : Nat → Decoder α} (hd : ∀ i, NonGrowing (d i)) (count : Nat) :
    NonGrowing (times count d) :=
  nonGrowing_timesFrom hd 0 count []

theorem nonGrowing_collectWhile (more : Cursor → Bool) {d : Decoder α} (hd : Advances d) :
    NonGrowing (collectWhile more d hd) := by
  have key : ∀ items c a c', collectWhileFrom more d hd items c = .ok a c' → c'.left ≤ c.left := by
    intro items c
    fun_induction collectWhileFrom more d hd items c with
    | case1 => simp
    | case2 items c _ a m hm ih =>
      intro b c' h
      exact Nat.le_trans (ih b c' h) (Nat.le_of_lt (hd hm))
    | case3 items c =>
      intro b c' h
      obtain ⟨_, rfl⟩ := EStateM.Result.ok.inj h
      exact Nat.le_refl _
  exact fun c a c' h => key [] c a c' h

theorem advances_collectUntil (next? : σ → α → Option σ) {d : Decoder α} (hd : Advances d) (s : σ) :
    Advances (collectUntil next? d hd s) := by
  have key : ∀ s items c a c',
      collectUntilFrom next? d hd s items c = .ok a c' → c'.left < c.left := by
    intro s items c
    fun_induction collectUntilFrom next? d hd s items c with
    | case1 => simp
    | case2 s items c a m hm _ =>
      intro b c' h
      obtain ⟨_, rfl⟩ := EStateM.Result.ok.inj h
      exact hd hm
    | case3 s items c a m hm s' _ ih =>
      intro b c' h
      exact Nat.lt_trans (ih b c' h) (hd hm)
  exact fun c a c' h => key s [] c a c' h

end WasmBinary.Decoder
