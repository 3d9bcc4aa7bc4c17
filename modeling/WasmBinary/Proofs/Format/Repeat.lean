import WasmBinary.Proofs.Format.Basic
import WasmBinary.Decoder.Repeat

/-! Formats of repeated items, and the loops that follow them. -/
namespace WasmBinary

variable {α σ : Type} {E : DecodeError → Prop} {G : Format α}

namespace Format

/-- The concatenation, in order, of one encoding of each item. -/
inductive Each (G : Format α) : Format (List α)
  | nil : Each G [] []
  | cons {bs cs : List UInt8} {a : α} {as : List α} (head : G bs a) (tail : Each G cs as) :
    Each G (bs ++ cs) (a :: as)

theorem each_nil_iff {bs : List UInt8} : Each G bs [] ↔ bs = [] := by
  constructor
  · intro h
    cases h
    rfl
  · intro h
    subst h
    exact .nil

theorem Each.imp {H : Format α} (hGH : ∀ bs a, G bs a → H bs a) {bs : List UInt8} {as : List α}
    (h : Each G bs as) : Each H bs as := by
  induction h with
  | nil => exact .nil
  | cons head _ ih => exact .cons (hGH _ _ head) ih

/-- Whether a list of items ends with the one that has no next state, and nowhere before. -/
def Closes (next? : σ → α → Option σ) : σ → List α → Prop
  | _, [] => False
  | s, a :: as =>
    match next? s a with
    | none => as = []
    | some t => Closes next? t as

end Format

namespace Decoder

open Format

theorem follows_timesFrom {d : Nat → Decoder α} (hd : ∀ i, Follows E G (d i))
    (index count : Nat) : Follows E (fun bs as => as.length = count ∧ Each G bs as)
      (timesFrom d index count []) := by
  induction count generalizing index with
  | zero =>
    refine (follows_pure []).congr fun bs as => ?_
    constructor
    · intro h
      obtain ⟨hlen, h⟩ := h
      obtain rfl := List.eq_nil_of_length_eq_zero hlen
      exact ⟨each_nil_iff.1 h, rfl⟩
    · intro h
      obtain ⟨rfl, rfl⟩ := h
      exact ⟨rfl, .nil⟩
  | succ count ih =>
    rw [timesFrom_succ]
    refine ((hd index).bind fun a => (ih (index + 1)).map (a :: ·)).congr fun bs as => ?_
    constructor
    · intro h
      obtain ⟨hlen, h⟩ := h
      cases h with
      | nil => simp at hlen
      | cons head tail =>
        exact ⟨_, _, _, rfl, head, _, ⟨Nat.succ.inj hlen, tail⟩, rfl⟩
    · intro h
      obtain ⟨bs₁, bs₂, a, rfl, head, as, ⟨rfl, tail⟩, rfl⟩ := h
      exact ⟨rfl, .cons head tail⟩

theorem follows_times {d : Nat → Decoder α} (hd : ∀ i, Follows E G (d i)) (count : Nat) :
    Follows E (fun bs as => as.length = count ∧ Each G bs as) (times count d) :=
  follows_timesFrom hd 0 count

/-- Successive successes of `d` lead from a cursor over some items to another cursor. -/
inductive Steps (d : Decoder α) : Cursor → List α → Cursor → Prop
  | nil (c : Cursor) : Steps d c [] c
  | cons {c m c' : Cursor} {a : α} {as : List α} (head : d c = .ok a m) (tail : Steps d m as c') :
    Steps d c (a :: as) c'

/-- Successive successes of the decoders with the numbers from `index` on lead from a cursor over
some items to another cursor. -/
inductive NumberedSteps (d : Nat → Decoder α) : Nat → Cursor → List α → Cursor → Prop
  | nil (index : Nat) (c : Cursor) : NumberedSteps d index c [] c
  | cons {index : Nat} {c m c' : Cursor} {a : α} {as : List α} (head : d index c = .ok a m)
    (tail : NumberedSteps d (index + 1) m as c') : NumberedSteps d index c (a :: as) c'

theorem steps_of_collectWhile {more : Cursor → Bool} {d : Decoder α} {hd : Advances d}
    {c c' : Cursor} {as : List α} (h : collectWhile more d hd c = .ok as c') :
    Steps d c as c' ∧ more c' = false := by
  generalize hn : c.left = n
  induction n using Nat.strongRecOn generalizing c as with
  | ind n ih =>
    subst hn
    rw [collectWhile_eq] at h
    split at h
    · obtain ⟨a, m, h₁, h₂⟩ := bind_ok h
      rw [map_apply] at h₂
      split at h₂
      · next as' m' h₃ =>
        obtain ⟨rfl, rfl⟩ := EStateM.Result.ok.inj h₂
        obtain ⟨tail, hmore⟩ := ih _ (hd h₁) h₃ rfl
        exact ⟨.cons h₁ tail, hmore⟩
      · simp at h₂
    · next hmore =>
      obtain ⟨rfl, rfl⟩ := EStateM.Result.ok.inj h
      exact ⟨.nil c, by simpa using hmore⟩

theorem steps_of_collectWhile_error {more : Cursor → Bool} {d : Decoder α} {hd : Advances d}
    {c c' : Cursor} {e : DecodeError} (h : collectWhile more d hd c = .error e c') :
    ∃ as m, Steps d c as m ∧ more m = true ∧ d m = .error e c' := by
  generalize hn : c.left = n
  induction n using Nat.strongRecOn generalizing c with
  | ind n ih =>
    subst hn
    rw [collectWhile_eq] at h
    split at h
    · next hmore =>
      rcases bind_error h with h | ⟨a, m, ha, h⟩
      · exact ⟨[], c, .nil c, hmore, h⟩
      · obtain ⟨as, m₁, hsteps, hlast⟩ := ih _ (hd ha) (map_error.1 h) rfl
        exact ⟨a :: as, m₁, .cons ha hsteps, hlast⟩
    · simp at h

theorem NumberedSteps.each {d : Nat → Decoder α}
    (hG : ∀ ⦃i c a c'⦄, d i c = .ok a c' → ∃ bs, c.Passes bs c' ∧ G bs a) {index : Nat}
    {c c' : Cursor} {as : List α} (h : NumberedSteps d index c as c') :
    ∃ bs, c.Passes bs c' ∧ Each G bs as := by
  induction h with
  | nil index c => exact ⟨[], .refl c, .nil⟩
  | cons head _ ih =>
    obtain ⟨bs₁, hp₁, hG₁⟩ := hG head
    obtain ⟨bs₂, hp₂, hG₂⟩ := ih
    exact ⟨bs₁ ++ bs₂, hp₁.trans hp₂, .cons hG₁ hG₂⟩

theorem Steps.numbered {d : Decoder α} {n : Nat} {c c' : Cursor} {as : List α}
    (h : Steps d c as c') : NumberedSteps (fun _ => d) n c as c' := by
  induction h generalizing n with
  | nil c => exact .nil n c
  | cons head _ ih => exact .cons head ih

theorem Steps.each {d : Decoder α}
    (hG : ∀ ⦃c a c'⦄, d c = .ok a c' → ∃ bs, c.Passes bs c' ∧ G bs a) {c c' : Cursor}
    {as : List α} (h : Steps d c as c') : ∃ bs, c.Passes bs c' ∧ Each G bs as :=
  (h.numbered (n := 0)).each fun _ => hG

theorem follows_collectUntil {d : Decoder α} (hd : Advances d) (hG : Follows E G d)
    (next? : σ → α → Option σ) (s : σ) :
    Follows E (fun bs as => Each G bs as ∧ Closes next? s as) (collectUntil next? d hd s) where
  sound c as c' h := by
    generalize hn : c.left = n
    induction n using Nat.strongRecOn generalizing c as s with
    | ind n ih =>
      subst hn
      rw [collectUntil_eq] at h
      obtain ⟨a, m, h₁, h₂⟩ := bind_ok h
      obtain ⟨bs₁, hp₁, head⟩ := hG.sound h₁
      cases hs : next? s a with
      | none =>
        rw [hs] at h₂
        obtain ⟨rfl, rfl⟩ := EStateM.Result.ok.inj h₂
        refine ⟨bs₁, hp₁, ?_, by simp [Closes, hs]⟩
        simpa using Each.cons head .nil
      | some t =>
        rw [hs] at h₂
        dsimp only at h₂
        rw [map_apply] at h₂
        split at h₂
        · next as' m' h₃ =>
          obtain ⟨rfl, rfl⟩ := EStateM.Result.ok.inj h₂
          obtain ⟨bs₂, hp₂, tail, hcl⟩ := ih _ (hd h₁) t m as' h₃ rfl
          exact ⟨bs₁ ++ bs₂, hp₁.trans hp₂, .cons head tail, by simpa [Closes, hs] using hcl⟩
        · simp at h₂
  complete bs as h := by
    obtain ⟨h, hcl⟩ := h
    induction h generalizing s with
    | nil => exact hcl.elim
    | @cons bs₁ bs₂ a as head tail ih =>
      rw [collectUntil_eq]
      refine (hG.complete head).bind ?_
      cases hs : next? s a with
      | none =>
        simp only [Closes, hs] at hcl
        subst hcl
        rw [each_nil_iff.1 tail]
        exact accepts_pure [a]
      | some t =>
        simp only [Closes, hs] at hcl
        exact (ih t hcl).map (a :: ·)

end Decoder
end WasmBinary
