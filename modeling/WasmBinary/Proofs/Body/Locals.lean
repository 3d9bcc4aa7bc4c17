import Mathlib.Algebra.GroupWithZero.Nat
import WasmBinary.Proofs.Trace.Basic

/-! The local slots of a body. They are counted by adding the counts of the groups and listed by
repeating the type of each group, and both agree: a slot belongs to the one group whose part of the
count it falls into. The number of groups fits 32 bits, so the count fits 64 bits. -/
namespace WasmBinary

namespace LocalGroup

variable {gs : List LocalGroup} {g : LocalGroup} {i j : Nat}

/-- The number of slots, added up in 64 bits. -/
def wordSlots (gs : List LocalGroup) : UInt64 :=
  gs.foldl (fun total g => total + g.count.toUInt64) 0

/-- The slot `i` falls into the group `g`, which has the number `j`: it comes after the slots of the
groups before, and these and the slots of `g` are more than `i`. -/
structure Holds (gs : List LocalGroup) (i j : Nat) (g : LocalGroup) : Prop where
  group : gs[j]? = some g
  le : slots (gs.take j) ≤ i
  lt : i < slots (gs.take j) + g.count.toNat

theorem slots_append (gs hs : List LocalGroup) : slots (gs ++ hs) = slots gs + slots hs := by
  induction gs with
  | nil => simp [slots]
  | cons g gs ih =>
    rw [List.cons_append, slots, slots, ih]
    omega

private theorem slots_take_le (gs : List LocalGroup) {j k : Nat} (h : j ≤ k) :
    slots (gs.take j) ≤ slots (gs.take k) := by
  have hsplit := slots_append ((gs.take k).take j) ((gs.take k).drop j)
  rw [List.take_append_drop, List.take_take, Nat.min_eq_left h] at hsplit
  omega

private theorem slots_take_succ (h : gs[j]? = some g) :
    slots (gs.take (j + 1)) = slots (gs.take j) + g.count.toNat := by
  rw [List.take_add_one, h, slots_append]
  simp [slots]

private theorem slots_le (gs : List LocalGroup) : slots gs ≤ gs.length * (2 ^ 32 - 1) := by
  induction gs with
  | nil => simp [slots]
  | cons g gs ih =>
    have hcount := g.count.toNat_lt
    rw [slots, List.length_cons, Nat.succ_mul]
    omega

theorem length_expand (gs : List LocalGroup) : (expand gs).length = slots gs := by
  induction gs with
  | nil => rfl
  | cons g gs ih =>
    unfold expand at ih ⊢
    rw [List.flatMap_cons, List.length_append, List.length_replicate, ih, slots]

/-- No sum on the way is lost if the last one fits. -/
private theorem toNat_foldl (gs : List LocalGroup) (total : UInt64)
    (h : total.toNat + slots gs < 2 ^ 64) :
    (gs.foldl (fun total g => total + g.count.toUInt64) total).toNat =
      total.toNat + slots gs := by
  induction gs generalizing total with
  | nil => simp [slots]
  | cons g gs ih =>
    rw [slots] at h
    have hsum : (total + g.count.toUInt64).toNat = total.toNat + g.count.toNat := by
      rw [UInt64.toNat_add, UInt32.toNat_toUInt64, Nat.mod_eq_of_lt (by omega)]
    rw [List.foldl_cons, ih _ (by omega), hsum, slots]
    omega

theorem toNat_wordSlots (h : slots gs < 2 ^ 64) : (wordSlots gs).toNat = slots gs := by
  rw [wordSlots, toNat_foldl gs 0 (by simpa using h)]
  simp

theorem Holds.unique {k : Nat} {g' : LocalGroup} (h : Holds gs i j g) (h' : Holds gs i k g') :
    k = j := by
  have hnext := slots_take_succ h.group
  have hnext' := slots_take_succ h'.group
  have hle := h.le
  have hlt := h.lt
  have hle' := h'.le
  have hlt' := h'.lt
  rcases Nat.lt_trichotomy k j with hk | hk | hk
  · have hmono := slots_take_le gs (show k + 1 ≤ j from hk)
    omega
  · exact hk
  · have hmono := slots_take_le gs (show j + 1 ≤ k from hk)
    omega

theorem exists_holds (h : i < slots gs) :
    ∃ j g, Holds gs i j g ∧ (expand gs)[i]? = some g.type := by
  induction gs generalizing i with
  | nil => simp [slots] at h
  | cons g gs ih =>
    rw [slots] at h
    by_cases hfirst : i < g.count.toNat
    · refine ⟨0, g, ⟨rfl, Nat.zero_le i, by simpa [slots] using hfirst⟩, ?_⟩
      simp [expand, List.getElem?_append, hfirst]
    · obtain ⟨j, g', hholds, htype⟩ := ih (show i - g.count.toNat < slots gs by omega)
      have hle := hholds.le
      have hlt := hholds.lt
      refine ⟨j + 1, g', ⟨by simpa using hholds.group, ?_, ?_⟩, ?_⟩
      · rw [List.take_succ_cons, slots]
        omega
      · rw [List.take_succ_cons, slots]
        omega
      · unfold expand at htype ⊢
        rw [List.flatMap_cons, List.getElem?_append_right (by simpa using hfirst),
          List.length_replicate]
        exact htype

theorem expand_filter (gs : List LocalGroup) : expand (gs.filter (·.count != 0)) = expand gs := by
  induction gs with
  | nil => rfl
  | cons g gs ih =>
    unfold expand at ih ⊢
    by_cases hzero : g.count = 0
    · simp [hzero, ih]
    · simp [hzero, ih]

end LocalGroup

open Decoder LocalGroup

theorem Body.length_locals_lt {declared : UInt32} {c c' : Cursor} {body : Body}
    (h : Body.decode declared c = .ok body c') : body.locals.length < 2 ^ 32 := by
  obtain ⟨bs, -, -, hholds⟩ :=
    (follows_decode (E := fun _ => True) (fun _ _ => trivial) declared).sound h
  cases hholds with
  | intro locals instructions size =>
    cases locals with
    | intro count items => exact count.upper

/-- The count of the slots fits 64 bits and is the number of slots listed; each slot falls into one
group and is of its type; and groups without slots change nothing. -/
theorem Body.decode_slots_exact {declared : UInt32} {c c' : Cursor} {body : Body}
    (h : Body.decode declared c = .ok body c') :
    body.locals.length < 2 ^ 32 ∧ slots body.locals < 2 ^ 64 ∧
      (wordSlots body.locals).toNat = slots body.locals ∧
      (expand body.locals).length = slots body.locals ∧
      (∀ i < slots body.locals, ∃ j g, LocalGroup.Holds body.locals i j g ∧
        (expand body.locals)[i]? = some g.type ∧
        ∀ k g', LocalGroup.Holds body.locals i k g' → k = j) ∧
      expand (body.locals.filter (·.count != 0)) = expand body.locals := by
  have hlength := Body.length_locals_lt h
  have hslots : slots body.locals < 2 ^ 64 := by
    calc slots body.locals ≤ body.locals.length * (2 ^ 32 - 1) := slots_le body.locals
      _ ≤ 2 ^ 32 * (2 ^ 32 - 1) := Nat.mul_le_mul_right _ hlength.le
      _ < 2 ^ 64 := by decide
  refine ⟨hlength, hslots, toNat_wordSlots hslots, length_expand _, fun i hi => ?_, expand_filter _⟩
  obtain ⟨j, g, hholds, htype⟩ := exists_holds hi
  exact ⟨j, g, hholds, htype, fun k g' hk => hholds.unique hk⟩

/-- More slots than 32 bits can count. The first one after the largest possible group is of the next
group that is not empty. -/
theorem Body.decode_slots_exact_large :
    ∃ body c', Body.decode 16 (.ofBytes [3, 0xFF, 0xFF, 0xFF, 0xFF, 0x0F, 0x7F, 0, 0x7E,
        0xFF, 0xFF, 0xFF, 0xFF, 0x0F, 0x7C, 0x0B]) = .ok body c' ∧
      slots body.locals = 8589934590 ∧ (expand body.locals)[4294967295]? = some .f64 := by
  have hanswer : answerOf (Body.decode 16 (.ofBytes [3, 0xFF, 0xFF, 0xFF, 0xFF, 0x0F, 0x7F, 0,
      0x7E, 0xFF, 0xFF, 0xFF, 0xFF, 0x0F, 0x7C, 0x0B])) = .ok ⟨16,
        [⟨4294967295, .i32⟩, ⟨0, .i64⟩, ⟨4294967295, .f64⟩], [⟨.endMark, .none⟩]⟩ := by
    decide +kernel
  cases hdecode : Body.decode 16 (.ofBytes [3, 0xFF, 0xFF, 0xFF, 0xFF, 0x0F, 0x7F, 0, 0x7E,
      0xFF, 0xFF, 0xFF, 0xFF, 0x0F, 0x7C, 0x0B]) with
  | error e c' =>
    rw [hdecode] at hanswer
    cases hanswer
  | ok body c' =>
    rw [hdecode] at hanswer
    obtain rfl := Except.ok.inj hanswer
    obtain ⟨-, -, -, -, hslot, -⟩ := Body.decode_slots_exact hdecode
    obtain ⟨j, g, hholds, htype, hunique⟩ := hslot 4294967295 (by decide)
    obtain rfl : 2 = j := hunique 2 ⟨4294967295, .f64⟩ ⟨rfl, by decide, by decide⟩
    obtain rfl := Option.some.inj hholds.group
    exact ⟨_, c', rfl, by decide, htype⟩

end WasmBinary
