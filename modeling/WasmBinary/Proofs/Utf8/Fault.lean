import Mathlib.Data.List.Basic
import Mathlib.Order.Bounds.Defs
import WasmBinary.Proofs.Utf8

/-! Where bytes stop being UTF-8. The scanner gives up at the first byte after which no character
can be continued, so what it has accepted by then is the longest well-formed start, and what it has
seen of the next character is as much of it as there is. -/
namespace WasmBinary.Utf8

variable {xs ys bs rest seq : List UInt8} {b x : UInt8} {q : Partial}

/-! ### Characters that are begun -/

/-- The bytes complete a character of which only `q` is known. -/
def Partial.Completes (q : Partial) (ys : List UInt8) : Prop :=
  ys.length = q.left ∧ (∀ y ∈ ys.head?, q.low ≤ y ∧ y ≤ q.high) ∧ ∀ y ∈ ys.tail, IsTail y

/-- The first byte decides what may follow. -/
theorem sequence_cons_iff (h : Partial.ofLead? b = some q) :
    Sequence (b :: ys) ↔ q.Completes ys := by
  constructor
  · intro hseq
    cases hseq with
    | one hb =>
      obtain rfl := Option.some.inj ((ofLead?_one hb).symm.trans h)
      simp [Partial.Completes]
    | two h₁ h₂ hx =>
      obtain rfl := Option.some.inj ((ofLead?_two h₁ h₂).symm.trans h)
      exact ⟨rfl, by simpa using hx.mem, by simp⟩
    | three h₁ h₂ hx hlow hhigh hy =>
      obtain rfl := Option.some.inj ((ofLead?_three h₁ h₂).symm.trans h)
      have hsecond := (mem_second_iff b _ 0xE0 0xED 0xA0 0x9F (by decide) (by decide)).2
        ⟨hx, hlow, hhigh⟩
      exact ⟨rfl, by simpa using hsecond, by simpa using hy⟩
    | four h₁ h₂ hx hlow hhigh hy hz =>
      obtain rfl := Option.some.inj ((ofLead?_four h₁ h₂).symm.trans h)
      have hsecond := (mem_second_iff b _ 0xF0 0xF4 0x90 0x8F (by decide) (by decide)).2
        ⟨hx, hlow, hhigh⟩
      exact ⟨rfl, by simpa using hsecond, by simpa using ⟨hy, hz⟩⟩
  · intro hcompletes
    obtain ⟨hlen, hhead, htail⟩ := hcompletes
    obtain hb | ⟨h₁, h₂⟩ | ⟨h₁, h₂⟩ | ⟨h₁, h₂⟩ := ofLead?_cases h
    · obtain rfl := Option.some.inj ((ofLead?_one hb).symm.trans h)
      obtain rfl := List.length_eq_zero_iff.1 hlen
      exact .one hb
    · obtain rfl := Option.some.inj ((ofLead?_two h₁ h₂).symm.trans h)
      obtain ⟨x, rfl⟩ := List.length_eq_one_iff.1 hlen
      exact .two h₁ h₂ (isTail_of_mem (hhead x rfl))
    · obtain rfl := Option.some.inj ((ofLead?_three h₁ h₂).symm.trans h)
      obtain ⟨x, y, rfl⟩ := List.length_eq_two.1 hlen
      obtain ⟨hx, hlow, hhigh⟩ :=
        (mem_second_iff _ _ _ _ _ _ (by decide) (by decide)).1 (hhead x rfl)
      exact .three h₁ h₂ hx hlow hhigh (htail y (by simp))
    · obtain rfl := Option.some.inj ((ofLead?_four h₁ h₂).symm.trans h)
      obtain ⟨x, y, z, rfl⟩ := List.length_eq_three.1 hlen
      obtain ⟨hx, hlow, hhigh⟩ :=
        (mem_second_iff _ _ _ _ _ _ (by decide) (by decide)).1 (hhead x rfl)
      exact .four h₁ h₂ hx hlow hhigh (htail y (by simp)) (htail z (by simp))

theorem not_sequence_of_ofLead?_eq_none (h : Partial.ofLead? b = none) : ¬ Sequence (b :: ys) := by
  intro hseq
  cases hseq with
  | one hb => rw [ofLead?_one hb] at h; cases h
  | two h₁ h₂ => rw [ofLead?_two h₁ h₂] at h; cases h
  | three h₁ h₂ => rw [ofLead?_three h₁ h₂] at h; cases h
  | four h₁ h₂ => rw [ofLead?_four h₁ h₂] at h; cases h

theorem Partial.completes_cons_iff (hleft : 1 ≤ q.left) :
    q.Completes (x :: ys) ↔ (q.low ≤ x ∧ x ≤ q.high) ∧ (q.push x).Completes ys := by
  have htails : (∀ y ∈ ys, IsTail y) ↔
      (∀ y ∈ ys.head?, (0x80 : UInt8) ≤ y ∧ y ≤ 0xBF) ∧ ∀ y ∈ ys.tail, IsTail y := by
    cases ys with
    | nil => simp
    | cons y ys =>
      have hy : IsTail y ↔ (0x80 : UInt8) ≤ y ∧ y ≤ 0xBF := ⟨IsTail.mem, isTail_of_mem⟩
      simp [hy]
  have hlen : (x :: ys).length = q.left ↔ ys.length = q.left - 1 := by
    rw [List.length_cons]
    omega
  unfold Partial.Completes Partial.push
  rw [hlen, List.tail_cons, htails]
  simp only [List.head?_cons, Option.mem_some_iff, forall_eq']
  exact and_left_comm

/-- The bytes `xs` were read of a character, and `q` is what is known of it. -/
structure Partial.Begun (q : Partial) (xs : List UInt8) : Prop where
  ne_nil : xs ≠ []
  seen : xs.length = q.seen
  left : 1 ≤ q.left
  range : q.low ≤ q.high
  completes : ∀ ys, Sequence (xs ++ ys) ↔ q.Completes ys

private theorem begun_of_ofLead? (h : Partial.ofLead? b = some q) (hleft : q.left ≠ 0) :
    q.Begun [b] := by
  have hfields : q.seen = 1 ∧ q.low ≤ q.high := by
    unfold Partial.ofLead? at h
    repeat' split at h
    all_goals cases h
    all_goals simp
  exact ⟨by simp, hfields.1.symm, Nat.pos_of_ne_zero hleft, hfields.2,
    fun ys => sequence_cons_iff h⟩

namespace Partial.Begun

theorem push (h : q.Begun xs) (hleft : q.left ≠ 1) (hx : q.low ≤ x ∧ x ≤ q.high) :
    (q.push x).Begun (xs ++ [x]) where
  ne_nil := by simp
  seen := by
    rw [List.length_append, h.seen]
    rfl
  left := by
    have hpos := h.left
    change 1 ≤ q.left - 1
    omega
  range := by
    show (0x80 : UInt8) ≤ 0xBF
    decide
  completes ys := by
    rw [List.append_assoc, List.singleton_append, h.completes, completes_cons_iff h.left]
    exact and_iff_right hx

theorem sequence (h : q.Begun xs) (hleft : q.left = 1) (hx : q.low ≤ x ∧ x ≤ q.high) :
    Sequence (xs ++ [x]) :=
  (h.completes [x]).2 ⟨hleft.symm, by simpa using hx, by simp⟩

theorem exists_sequence (h : q.Begun xs) : ∃ y ys, Sequence (xs ++ y :: ys) := by
  refine ⟨q.low, List.replicate (q.left - 1) 0x80, (h.completes _).2 ⟨?_, ?_, ?_⟩⟩
  · have hpos := h.left
    rw [List.length_cons, List.length_replicate]
    omega
  · simpa using h.range
  · intro y hy
    rw [List.eq_of_mem_replicate hy]
    exact ⟨by decide, by decide⟩

end Partial.Begun

/-! ### Well-formed bytes -/

private theorem Sequence.exists_cons (h : Sequence seq) : ∃ b ys, seq = b :: ys := by
  cases h with
  | one => exact ⟨_, _, rfl⟩
  | two => exact ⟨_, _, rfl⟩
  | three => exact ⟨_, _, rfl⟩
  | four => exact ⟨_, _, rfl⟩

theorem Sequence.eq_of_prefix (h : Sequence xs) (h' : Sequence ys) (hp : xs <+: ys) : xs = ys := by
  obtain ⟨b, xs, rfl⟩ := h.exists_cons
  obtain ⟨b', ys, rfl⟩ := h'.exists_cons
  obtain ⟨rfl, hp'⟩ := List.cons_prefix_cons.1 hp
  cases hq : Partial.ofLead? b with
  | none => exact absurd h (not_sequence_of_ofLead?_eq_none hq)
  | some q =>
    have hlen := ((sequence_cons_iff hq).1 h).1
    have hlen' := ((sequence_cons_iff hq).1 h').1
    rw [hp'.eq_of_length (hlen.trans hlen'.symm)]

/-- The bytes of one character after the other. -/
inductive WellFormed : List UInt8 → Prop
  | nil : WellFormed []
  | append {seq rest : List UInt8} (head : Sequence seq) (tail : WellFormed rest) :
    WellFormed (seq ++ rest)

theorem wellFormed_iff : WellFormed bs ↔ ∃ s, bs = encoding s := by
  constructor
  · intro h
    have hchars : ∃ cs : List Char, bs = cs.flatMap String.utf8EncodeChar := by
      induction h with
      | nil => exact ⟨[], rfl⟩
      | append head _ ih =>
        obtain ⟨c, hc, -⟩ := head.scan
        obtain ⟨cs, hcs⟩ := ih
        exact ⟨c :: cs, by rw [List.flatMap_cons, hc, hcs]⟩
    obtain ⟨cs, hcs⟩ := hchars
    exact ⟨String.ofList cs, by rw [encoding_eq_flatMap, String.toList_ofList, hcs]⟩
  · intro h
    obtain ⟨s, rfl⟩ := h
    rw [encoding_eq_flatMap]
    induction s.toList with
    | nil => exact .nil
    | cons c cs ih => exact .append (sequence_encodeChar c) ih

/-- If no character stands after some well-formed bytes, then no well-formed start is longer. -/
theorem WellFormed.prefix_of_append {w done : List UInt8} (hw : WellFormed w)
    (hdone : WellFormed done) (hrest : ∀ seq, Sequence seq → ¬ seq <+: rest)
    (hp : w <+: done ++ rest) : w <+: done := by
  induction hdone generalizing w with
  | nil =>
    cases hw with
    | nil => exact List.nil_prefix
    | append head _ => exact absurd ((List.prefix_append _ _).trans hp) (hrest _ head)
  | @append seq done hseq _ ih =>
    cases hw with
    | nil => exact List.nil_prefix
    | @append seq' w head tail =>
      rw [List.append_assoc] at hp
      have hfirst : seq' <+: seq ++ (done ++ rest) := (List.prefix_append _ _).trans hp
      have heq : seq' = seq := by
        rcases List.prefix_or_prefix_of_prefix hfirst (List.prefix_append _ _) with hle | hle
        · exact head.eq_of_prefix hseq hle
        · exact (hseq.eq_of_prefix head hle).symm
      subst heq
      exact (List.prefix_append_right_inj _).2 (ih tail ((List.prefix_append_right_inj _).1 hp))

/-! ### Faults -/

def Begins (xs : List UInt8) : Prop :=
  xs ≠ [] ∧ ∃ seq, Sequence seq ∧ xs <+: seq

private theorem Begins.of_prefix (h : Begins ys) (hp : xs <+: ys) (hne : xs ≠ []) : Begins xs := by
  obtain ⟨-, seq, hseq, hys⟩ := h
  exact ⟨hne, seq, hseq, hp.trans hys⟩

theorem Partial.Begun.begins (h : q.Begun xs) : Begins xs := by
  obtain ⟨y, ys, hseq⟩ := h.exists_sequence
  exact ⟨h.ne_nil, _, hseq, List.prefix_append _ _⟩

theorem Partial.Begun.not_begins (h : q.Begun xs) (hb : ¬ (q.low ≤ b ∧ b ≤ q.high)) :
    ¬ Begins (xs ++ [b]) := by
  intro hbegins
  obtain ⟨-, seq, hseq, ys, rfl⟩ := hbegins
  rw [List.append_assoc, List.singleton_append, h.completes, completes_cons_iff h.left] at hseq
  exact hb hseq.1

theorem Partial.Begun.not_prefix (h : q.Begun xs) (hseq : Sequence seq) : ¬ seq <+: xs := by
  intro hp
  obtain ⟨y, ys, hseq'⟩ := h.exists_sequence
  have heq := hseq.eq_of_prefix hseq' (hp.trans (List.prefix_append _ _))
  have hlen := hp.length_le
  rw [heq, List.length_append, List.length_cons] at hlen
  omega

/-- Where the scanner gives up within the first character: at the end of the bytes, at its first
byte, or at a later one. -/
inductive Stuck : List UInt8 → Option Nat → Prop
  | cut {xs : List UInt8} {q : Partial} (h : q.Begun xs) : Stuck xs none
  | lead {b : UInt8} (bs : List UInt8) (h : ∀ ys, ¬ Sequence (b :: ys)) : Stuck (b :: bs) (some 1)
  | tail {xs : List UInt8} {q : Partial} {b : UInt8} (bs : List UInt8) (h : q.Begun xs)
    (hb : ¬ Begins (xs ++ [b])) : Stuck (xs ++ b :: bs) (some xs.length)

theorem stuck_of_scan {chars : List Char} {index : Nat} {p : Option Partial} {f : Fault}
    (hp : ∀ q, p = some q → q.Begun xs) (hnone : p = none → xs = [])
    (h : scan chars index p bs = .error f) :
    ∃ done rest, xs ++ bs = done ++ rest ∧ WellFormed done ∧ f.index = index + done.length ∧
      Stuck rest f.invalid := by
  fun_induction scan chars index p bs generalizing xs with
  | case1 => cases h
  | case2 chars index q =>
    cases h
    exact ⟨[], xs, by simp, .nil, rfl, .cut (hp q rfl)⟩
  | case3 chars index b bs hlead =>
    cases h
    rw [hnone rfl]
    exact ⟨[], b :: bs, rfl, .nil, rfl, .lead bs fun ys => not_sequence_of_ofLead?_eq_none hlead⟩
  | case4 chars index b bs q hlead hleft ih =>
    have hseq : Sequence [b] := (sequence_cons_iff hlead).2 ⟨hleft.symm, by simp, by simp⟩
    obtain ⟨done, rest, hbs, hdone, hindex, hstuck⟩ := ih (by simp) (fun _ => rfl) h
    refine ⟨[b] ++ done, rest, ?_, .append hseq hdone, ?_, hstuck⟩
    · rw [hnone rfl, List.append_assoc, ← hbs]
      rfl
    · rw [hindex, List.length_append, List.length_singleton]
      omega
  | case5 chars index b bs q hlead hleft ih =>
    have hbegun : ∀ q', some q = some q' → q'.Begun [b] := by
      intro q' hq'
      obtain rfl := Option.some.inj hq'
      exact begun_of_ofLead? hlead hleft
    rw [hnone rfl]
    exact ih hbegun (by simp) h
  | case6 chars index b bs q hb hleft ih =>
    have hbegun := hp q rfl
    obtain ⟨done, rest, hbs, hdone, hindex, hstuck⟩ := ih (by simp) (fun _ => rfl) h
    refine ⟨(xs ++ [b]) ++ done, rest, ?_, .append (hbegun.sequence hleft hb) hdone, ?_, hstuck⟩
    · rw [List.append_assoc, ← hbs]
      simp
    · rw [hindex, List.length_append, List.length_append, hbegun.seen, List.length_singleton]
      omega
  | case7 chars index b bs q hb hleft ih =>
    have hbegun : ∀ q', some (q.push b) = some q' → q'.Begun (xs ++ [b]) := by
      intro q' hq'
      obtain rfl := Option.some.inj hq'
      exact (hp q rfl).push hleft hb
    obtain ⟨done, rest, hbs, hfields⟩ := ih hbegun (by simp) h
    exact ⟨done, rest, by rw [← hbs]; simp, hfields⟩
  | case8 chars index b bs q hb =>
    cases h
    have hbegun := hp q rfl
    rw [← hbegun.seen]
    exact ⟨[], xs ++ b :: bs, rfl, .nil, rfl, .tail bs hbegun (hbegun.not_begins hb)⟩

theorem Stuck.not_prefix {invalid : Option Nat} (h : Stuck rest invalid) (hseq : Sequence seq) :
    ¬ seq <+: rest := by
  intro hp
  cases h with
  | cut hbegun => exact hbegun.not_prefix hseq hp
  | lead bs hnone =>
    obtain ⟨b', ys, rfl⟩ := hseq.exists_cons
    obtain ⟨rfl, -⟩ := List.cons_prefix_cons.1 hp
    exact hnone ys hseq
  | @tail xs q b bs hbegun hb =>
    have hnext : xs ++ [b] <+: xs ++ b :: bs := ⟨bs, by simp⟩
    have hne : xs ++ [b] ≠ [] := by simp
    rcases List.prefix_or_prefix_of_prefix hp hnext with hle | hle
    · rcases List.prefix_concat_iff.1 hle with heq | hle
      · exact hb ⟨hne, seq, hseq, heq ▸ List.prefix_refl _⟩
      · exact hbegun.not_prefix hseq hle
    · exact hb ⟨hne, seq, hseq, hle⟩

/-- The numbers of bytes at the front that may count as one mistake: one, and as many as begin
a character. The greatest is the length of the maximal subpart. -/
def subparts (rest : List UInt8) : Set Nat :=
  {k | k ≤ rest.length ∧ (k = 1 ∨ Begins (rest.take k))}

theorem Stuck.none_iff {invalid : Option Nat} (h : Stuck rest invalid) :
    invalid = none ↔ Begins rest := by
  cases h with
  | cut hbegun => exact iff_of_true rfl hbegun.begins
  | @lead b bs hnone =>
    refine iff_of_false (by simp) fun hbegins => ?_
    obtain ⟨-, seq, hseq, ys, rfl⟩ := hbegins
    exact hnone _ hseq
  | @tail xs q b bs hbegun hb =>
    have hnext : xs ++ [b] <+: xs ++ b :: bs := ⟨bs, by simp⟩
    exact iff_of_false (by simp) fun hbegins => hb (hbegins.of_prefix hnext (by simp))

theorem Stuck.isGreatest {n : Nat} (h : Stuck rest (some n)) : IsGreatest (subparts rest) n := by
  cases h with
  | @lead b bs hnone =>
    refine ⟨⟨by simp, .inl rfl⟩, fun k hk => ?_⟩
    obtain ⟨-, hone | ⟨hne, seq, hseq, hp⟩⟩ := hk
    · exact Nat.le_of_eq hone
    · cases k with
      | zero => exact Nat.zero_le _
      | succ k =>
        obtain ⟨ys, rfl⟩ := hp
        exact absurd hseq (hnone _)
  | @tail xs q b bs hbegun hb =>
    refine ⟨⟨by simp, .inr (by simpa using hbegun.begins)⟩, fun k hk => ?_⟩
    obtain ⟨hle, hone | hbegins⟩ := hk
    · rw [hone]
      exact List.length_pos_of_ne_nil hbegun.ne_nil
    · by_contra hlt
      have hnext : xs ++ [b] <+: (xs ++ b :: bs).take k := by
        rw [List.prefix_take_iff]
        refine ⟨⟨bs, by simp⟩, ?_⟩
        rw [List.length_append, List.length_singleton]
        omega
      exact hb (hbegins.of_prefix hnext (by simp))

/-- The fault is where and why the bytes stop being UTF-8. -/
structure Fault.Describes (f : Fault) (bs : List UInt8) : Prop where
  /-- The index is the length of the longest well-formed start. -/
  index : IsGreatest {i | i ≤ bs.length ∧ WellFormed (bs.take i)} f.index
  /-- There is no number of invalid bytes if the bytes end inside a character. -/
  incomplete : f.invalid = none ↔ Begins (bs.drop f.index)
  /-- Otherwise it is the length of the longest beginning of a character, and at least one. -/
  invalid : ∀ n, f.invalid = some n → IsGreatest (subparts (bs.drop f.index)) n

theorem describes_of_decode {f : Fault} (h : decode bs = .error f) : f.Describes bs := by
  have hscan : scan [] 0 none bs = .error f := by
    rw [decode] at h
    cases hs : scan [] 0 none bs with
    | ok cs =>
      rw [hs] at h
      cases h
    | error f' =>
      rw [hs] at h
      cases h
      rfl
  obtain ⟨done, rest, hbs, hdone, hindex, hstuck⟩ :=
    stuck_of_scan (by simp) (fun _ => rfl) hscan
  have hbs' : bs = done ++ rest := hbs
  have hindex' : f.index = done.length := by omega
  have hdrop : bs.drop f.index = rest := by rw [hbs', hindex', List.drop_left]
  refine ⟨⟨⟨?_, ?_⟩, fun i hi => ?_⟩, hdrop ▸ hstuck.none_iff, fun n hn => ?_⟩
  · rw [hbs', hindex', List.length_append]
    exact Nat.le_add_right _ _
  · rw [hbs', hindex', List.take_left]
    exact hdone
  · obtain ⟨hle, hwell⟩ := hi
    have hp : bs.take i <+: done ++ rest := hbs' ▸ List.take_prefix i bs
    have hlen := (hwell.prefix_of_append hdone (fun _ => hstuck.not_prefix) hp).length_le
    rw [List.length_take_of_le hle] at hlen
    omega
  · rw [hn] at hstuck
    rw [hdrop]
    exact hstuck.isGreatest

end WasmBinary.Utf8
