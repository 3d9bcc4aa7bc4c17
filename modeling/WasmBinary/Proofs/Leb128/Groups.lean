import Mathlib.Algebra.BigOperators.Ring.Finset
import Mathlib.Tactic.Ring
import WasmBinary.Proofs.Diagnosis.Basic

/-! The groups of an integer as a sum over the places of the input, and the encodings of an integer
in a given number of groups. -/
namespace WasmBinary.Leb128

variable {bs xs : List UInt8} {p k width : Nat}

/-- Of the `k` bytes from the place `p` on, exactly the last one has its top bit clear. -/
structure Terminated (bs : List UInt8) (p k : Nat) : Prop where
  pos : 1 ≤ k
  inside : p + k ≤ bs.length
  continued : ∀ i < k - 1, (bs.getD (p + i) 0).toNat.testBit 7 = true
  last : (bs.getD (p + (k - 1)) 0).toNat.testBit 7 = false

/-- The sum of the groups of seven bits in the `k` bytes from the place `p` on, lowest first. -/
def groupSum (bs : List UInt8) (p k : Nat) : Nat :=
  ∑ i ∈ Finset.range k, (bs.getD (p + i) 0).toNat % 128 * 2 ^ (7 * i)

/-- The same groups in two's complement: the sign is bit 6 of the last byte. -/
def signedGroupSum (bs : List UInt8) (p k : Nat) : Int :=
  groupSum bs p k - if (bs.getD (p + (k - 1)) 0).toNat.testBit 6 then 2 ^ (7 * k) else 0

theorem testBit_seven (b : UInt8) : b.toNat.testBit 7 = true ↔ 128 ≤ b.toNat := by
  have hb := b.toNat_lt
  rw [Nat.testBit_eq_decide_div_mod_eq, decide_eq_true_eq]
  omega

private theorem testBit_six (b : UInt8) : b.toNat.testBit 6 = true ↔ 64 ≤ b.toNat % 128 := by
  have hb := b.toNat_lt
  rw [Nat.testBit_eq_decide_div_mod_eq, decide_eq_true_eq]
  omega

private theorem getD_slice (bs : List UInt8) (p : Nat) {i k : Nat} (h : i < k) :
    ((bs.drop p).take k).getD i 0 = bs.getD (p + i) 0 := by
  simp [List.getD_eq_getElem?_getD, h]

theorem length_slice (h : p + k ≤ bs.length) : ((bs.drop p).take k).length = k := by
  rw [List.length_take, List.length_drop]
  omega

private theorem delimited_iff : Delimited xs ↔ xs ≠ [] ∧
    (∀ i < xs.length - 1, 128 ≤ (xs.getD i 0).toNat) ∧
      (xs.getD (xs.length - 1) 0).toNat < 128 := by
  induction xs with
  | nil => simp [Delimited]
  | cons b xs ih =>
    cases xs with
    | nil => simp [Delimited]
    | cons b' xs =>
      rw [Delimited, ih]
      constructor
      · intro h
        obtain ⟨hb, -, hcontinued, hlast⟩ := h
        refine ⟨by simp, fun i hi => ?_, by simpa using hlast⟩
        cases i with
        | zero => simpa using hb
        | succ i => simpa using hcontinued i (by simpa using hi)
      · intro h
        obtain ⟨-, hcontinued, hlast⟩ := h
        have hb : 128 ≤ b.toNat := by simpa using hcontinued 0 (by simp)
        refine ⟨hb, by simp, fun i hi => ?_, by simpa using hlast⟩
        simpa using hcontinued (i + 1) (by simpa using hi)

theorem delimited_slice_iff (h : p + k ≤ bs.length) :
    Delimited ((bs.drop p).take k) ↔ Terminated bs p k := by
  have hlen := length_slice h
  rw [delimited_iff, hlen, ← List.length_pos_iff, hlen]
  constructor
  · intro hd
    obtain ⟨hpos, hcontinued, hlast⟩ := hd
    refine ⟨hpos, h, fun i hi => ?_, ?_⟩
    · rw [testBit_seven, ← getD_slice bs p (by omega : i < k)]
      exact hcontinued i hi
    · rw [← Bool.not_eq_true, testBit_seven, ← getD_slice bs p (by omega : k - 1 < k)]
      omega
  · intro ht
    refine ⟨ht.pos, fun i hi => ?_, ?_⟩
    · rw [getD_slice bs p (by omega : i < k), ← testBit_seven]
      exact ht.continued i hi
    · have hpos := ht.pos
      have hlast := ht.last
      rw [← Bool.not_eq_true, testBit_seven] at hlast
      rw [getD_slice bs p (by omega : k - 1 < k)]
      omega

private theorem groups_eq_sum (xs : List UInt8) :
    groups xs = ∑ i ∈ Finset.range xs.length, (xs.getD i 0).toNat % 128 * 2 ^ (7 * i) := by
  induction xs with
  | nil => simp [groups]
  | cons b xs ih =>
    have hshift : ∀ i, (xs.getD i 0).toNat % 128 * 2 ^ (7 * (i + 1)) =
        128 * ((xs.getD i 0).toNat % 128 * 2 ^ (7 * i)) := by
      intro i
      rw [Nat.mul_add, Nat.pow_add]
      ring
    rw [groups, ih, List.length_cons, Finset.sum_range_succ', Finset.mul_sum]
    simp only [List.getD_cons_succ, List.getD_cons_zero, hshift, Nat.mul_zero, Nat.pow_zero,
      Nat.mul_one]
    exact Nat.add_comm _ _

theorem groups_slice (h : p + k ≤ bs.length) :
    groups ((bs.drop p).take k) = groupSum bs p k := by
  rw [groups_eq_sum, length_slice h, groupSum]
  refine Finset.sum_congr rfl fun i hi => ?_
  rw [getD_slice bs p (Finset.mem_range.1 hi)]

/-- The top bit of the number is that of its last group. -/
theorem two_mul_groups_lt_iff (hxs : xs ≠ []) :
    2 * groups xs < 128 ^ xs.length ↔ (xs.getD (xs.length - 1) 0).toNat % 128 < 64 := by
  induction xs with
  | nil => exact absurd rfl hxs
  | cons b xs ih =>
    cases xs with
    | nil =>
      simp only [groups, List.length_singleton, Nat.sub_self, List.getD_cons_zero]
      omega
    | cons b' xs =>
      have hlast := ih (by simp)
      obtain ⟨m, hm⟩ : ∃ m, 128 ^ (b' :: xs).length = 2 * m :=
        ⟨64 * 128 ^ xs.length, by rw [List.length_cons, Nat.pow_succ]; omega⟩
      have hget : (b :: b' :: xs).getD ((b :: b' :: xs).length - 1) 0 =
          (b' :: xs).getD ((b' :: xs).length - 1) 0 := by simp
      rw [hget, ← hlast, groups, List.length_cons, Nat.pow_succ, hm]
      omega

theorem signedGroups_slice (h : p + k ≤ bs.length) (hpos : 1 ≤ k) :
    signedGroups ((bs.drop p).take k) = signedGroupSum bs p k := by
  have hlen := length_slice h
  have hne : (bs.drop p).take k ≠ [] := by
    rw [← List.length_pos_iff, hlen]
    exact hpos
  have hsign := two_mul_groups_lt_iff hne
  rw [hlen, getD_slice bs p (by omega : k - 1 < k)] at hsign
  have hpow : (128 : Int) ^ k = 2 ^ (7 * k) := by
    have hnat : 128 ^ k = 2 ^ (7 * k) := (Nat.pow_mul 2 7 k).symm
    exact_mod_cast hnat
  have hbit := testBit_six (bs.getD (p + (k - 1)) 0)
  unfold signedGroups signedGroupSum
  rw [hlen, hpow, groups_slice h] at *
  by_cases hlt : 2 * groupSum bs p k < 128 ^ k
  · rw [if_pos hlt, if_neg (by rw [hbit]; omega)]
    omega
  · rw [if_neg hlt, if_pos (by rw [hbit]; omega)]

/-! ### Encodings -/

/-- The lowest groups of seven bits of an integer in two's complement, one and `more`, as the bytes
that encode it. -/
def inGroups : (more : Nat) → (n : Int) → List UInt8
  | 0, n => [UInt8.ofNat (n % 128).toNat]
  | more + 1, n => UInt8.ofNat ((n % 128).toNat + 128) :: inGroups more (n / 128)

theorem length_inGroups (more : Nat) (n : Int) : (inGroups more n).length = more + 1 := by
  induction more generalizing n with
  | zero => rfl
  | succ more ih => rw [inGroups, List.length_cons, ih]

private theorem inGroups_eq_cons (more : Nat) (n : Int) : ∃ b xs, inGroups more n = b :: xs := by
  cases more with
  | zero => exact ⟨_, _, rfl⟩
  | succ more => exact ⟨_, _, rfl⟩

private theorem toNat_lastGroup (n : Int) :
    (UInt8.ofNat (n % 128).toNat).toNat = (n % 128).toNat := by
  have hlt : (n % 128).toNat < 256 := by omega
  exact UInt8.toNat_ofNat_of_lt' hlt

private theorem toNat_moreGroup (n : Int) :
    (UInt8.ofNat ((n % 128).toNat + 128)).toNat = (n % 128).toNat + 128 := by
  have hlt : (n % 128).toNat + 128 < 256 := by omega
  exact UInt8.toNat_ofNat_of_lt' hlt

theorem delimited_inGroups (more : Nat) (n : Int) : Delimited (inGroups more n) := by
  induction more generalizing n with
  | zero =>
    rw [inGroups, Delimited, toNat_lastGroup]
    omega
  | succ more ih =>
    have htail := ih (n / 128)
    obtain ⟨b, xs, hxs⟩ := inGroups_eq_cons more (n / 128)
    rw [hxs] at htail
    rw [inGroups, hxs, Delimited, toNat_moreGroup]
    exact ⟨by omega, htail⟩

theorem groups_inGroups {more : Nat} {n : Int} (hlower : 0 ≤ n) (hupper : n < 128 ^ (more + 1)) :
    (groups (inGroups more n) : Int) = n := by
  induction more generalizing n with
  | zero =>
    rw [inGroups, groups, groups, toNat_lastGroup]
    omega
  | succ more ih =>
    rw [pow_succ] at hupper
    have htail := @ih (n / 128) (by omega) (by omega)
    rw [inGroups, groups, toNat_moreGroup]
    omega

theorem signedGroups_inGroups {more : Nat} {n : Int} (hlower : -(64 * 128 ^ more) ≤ n)
    (hupper : n < 64 * 128 ^ more) : signedGroups (inGroups more n) = n := by
  induction more generalizing n with
  | zero =>
    rw [inGroups, signedGroups_singleton, signedPayload, payload, toNat_lastGroup]
    split <;> omega
  | succ more ih =>
    rw [pow_succ] at hlower hupper
    have htail := @ih (n / 128) (by omega) (by omega)
    obtain ⟨b, xs, hxs⟩ := inGroups_eq_cons more (n / 128)
    rw [hxs] at htail
    rw [inGroups, hxs, signedGroups_cons, htail, payload, toNat_moreGroup]
    omega

theorem take_inGroups {more p : Nat} {n : Int} {rest : List UInt8}
    (h : bs.drop p = inGroups more n ++ rest) :
    p + (more + 1) ≤ bs.length ∧ (bs.drop p).take (more + 1) = inGroups more n := by
  have hlen := length_inGroups more n
  have hdrop := congrArg List.length h
  rw [List.length_drop, List.length_append, hlen] at hdrop
  refine ⟨by omega, ?_⟩
  rw [h, ← hlen, List.take_left]

theorem maxBytes_pos (hw : 0 < width) : 0 < maxBytes width := by
  rw [maxBytes]
  omega

private theorem pow_maxBytes (width : Nat) : 2 ^ width ≤ 128 ^ maxBytes width := by
  have hpow : 128 ^ maxBytes width = 2 ^ (7 * maxBytes width) := (Nat.pow_mul 2 7 _).symm
  have hwidth : width ≤ 7 * maxBytes width := by
    rw [maxBytes]
    omega
  rw [hpow]
  exact Nat.pow_le_pow_right (by decide) hwidth

/-- One group and `more` of them hold the natural number. -/
def Holds (n more : Nat) : Prop :=
  n < 128 ^ (more + 1)

/-- One group and `more` of them hold the integer and its sign. -/
def SignedHolds (n : Int) (more : Nat) : Prop :=
  -(64 * 128 ^ more) ≤ n ∧ n < 64 * 128 ^ more

theorem Holds.mono {n more more' : Nat} (h : Holds n more) (hle : more ≤ more') : Holds n more' :=
  Nat.lt_of_lt_of_le h (Nat.pow_le_pow_right (by decide) (by omega))

theorem SignedHolds.mono {n : Int} {more more' : Nat} (h : SignedHolds n more)
    (hle : more ≤ more') : SignedHolds n more' := by
  have hpow : (128 : Int) ^ more ≤ 128 ^ more' := by
    exact_mod_cast Nat.pow_le_pow_right (n := 128) (by decide) hle
  unfold SignedHolds at h ⊢
  omega

theorem holds_last {n : Nat} (hw : 0 < width) (hn : n < 2 ^ width) :
    Holds n (maxBytes width - 1) := by
  have hpow := pow_maxBytes width
  rw [Holds, Nat.sub_add_cancel (maxBytes_pos hw)]
  omega

theorem signedHolds_last {n : Int} (hw : 0 < width) (hlower : -2 ^ (width - 1) ≤ n)
    (hupper : n < 2 ^ (width - 1)) : SignedHolds n (maxBytes width - 1) := by
  have hnat : 2 ^ (width - 1 + 1) ≤ 128 ^ (maxBytes width - 1 + 1) := by
    rw [Nat.sub_add_cancel hw, Nat.sub_add_cancel (maxBytes_pos hw)]
    exact pow_maxBytes width
  have hpow : (2 : Int) ^ (width - 1) * 2 ≤ 128 ^ (maxBytes width - 1) * 128 := by
    rw [Nat.pow_succ, Nat.pow_succ] at hnat
    exact_mod_cast hnat
  unfold SignedHolds
  omega

theorem unsigned_inGroups {n more : Nat} (hn : n < 2 ^ width) (hmore : more < maxBytes width)
    (h : Holds n more) : Unsigned width (inGroups more n) n where
  delimited := delimited_inGroups more n
  length := by
    rw [length_inGroups]
    exact hmore
  value := by
    have hupper : (n : Int) < 128 ^ (more + 1) := by exact_mod_cast h
    exact_mod_cast groups_inGroups (Int.natCast_nonneg n) hupper
  upper := hn

theorem signed_inGroups {n : Int} {more : Nat} (hlower : -2 ^ (width - 1) ≤ n)
    (hupper : n < 2 ^ (width - 1)) (hmore : more < maxBytes width) (h : SignedHolds n more) :
    Signed width (inGroups more n) n where
  delimited := delimited_inGroups more n
  length := by
    rw [length_inGroups]
    exact hmore
  value := signedGroups_inGroups h.1 h.2
  lower := hlower
  upper := hupper

end WasmBinary.Leb128
