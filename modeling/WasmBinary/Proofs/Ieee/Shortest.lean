import WasmBinary.Ieee.Shortest
import WasmBinary.Proofs.Decimal
import WasmBinary.Proofs.Ieee.Interval

/-! The search for the shortest decimal, grid by grid.

On each grid of multiples of a power of ten only the two next to the number matter, as the interval
has no gaps. The first grid that meets the interval gives the decimal: one of fewer digits would
have been met before, unless it lies below the power of ten that begins the number, and then that
power is in the interval itself. -/
namespace WasmBinary.Ieee

namespace Interval

variable {I : Interval} {x y : ℚ} {e : Int}

theorem precedes_of_lt (h : x < y) : I.Precedes x y :=
  ⟨h.le, fun heq => absurd heq h.ne⟩

theorem Precedes.trans_le {z : ℚ} (h : I.Precedes x y) (hyz : y ≤ z) : I.Precedes x z := by
  refine ⟨h.1.trans hyz, fun heq => h.2 ?_⟩
  exact le_antisymm h.1 (heq ▸ hyz)

theorem Precedes.of_le {z : ℚ} (h : I.Precedes y z) (hxy : x ≤ y) : I.Precedes x z := by
  refine ⟨hxy.trans h.1, fun heq => h.2 ?_⟩
  exact le_antisymm h.1 (heq ▸ hxy)

namespace Proper

variable (hI : I.Proper)

include hI

private theorem cast_den_pos : (0 : ℚ) < I.den := by
  exact_mod_cast hI.den_pos

private theorem low_lt_number : (I.low : ℚ) / I.den < I.number := by
  have hlow : (I.low : ℚ) < I.value := by exact_mod_cast hI.low_lt
  exact div_lt_div_of_pos_right hlow hI.cast_den_pos

private theorem number_lt_high : I.number < I.high / I.den := by
  have hhigh : (I.value : ℚ) < I.high := by exact_mod_cast hI.lt_high
  exact div_lt_div_of_pos_right hhigh hI.cast_den_pos

theorem pos_of_contains (hx : I.Contains x) : 0 < x := by
  have hlow : (0 : ℚ) < I.low := by exact_mod_cast hI.low_pos
  exact (div_pos hlow hI.cast_den_pos).trans_le hx.1.1

theorem contains_of_le (hx : I.Contains x) (hxy : x ≤ y) (hy : y ≤ I.number) : I.Contains y :=
  ⟨hx.1.trans_le hxy, precedes_of_lt (hy.trans_lt hI.number_lt_high)⟩

theorem contains_of_ge (hx : I.Contains x) (hy : I.number ≤ y) (hyx : y ≤ x) : I.Contains y :=
  ⟨precedes_of_lt (hI.low_lt_number.trans_le hy), hx.2.of_le hyx⟩

theorem contains_of_le_number (hx : x ≤ I.number) :
    I.Contains x ↔ I.Precedes (I.low / I.den) x :=
  ⟨fun h => h.1, fun h => ⟨h, precedes_of_lt (hx.trans_lt hI.number_lt_high)⟩⟩

theorem contains_of_number_le (hx : I.number ≤ x) :
    I.Contains x ↔ I.Precedes x (I.high / I.den) :=
  ⟨fun h => h.2, fun h => ⟨precedes_of_lt (hI.low_lt_number.trans_le hx), h⟩⟩

end Proper

private theorem before_iff {s : ℚ} (hs : 0 < s) (a b : Nat) :
    I.before a b = true ↔ I.Precedes (a * s) (b * s) := by
  have hle : (a : ℚ) * s ≤ b * s ↔ a ≤ b := by
    rw [mul_le_mul_iff_left₀ hs]
    exact Nat.cast_le
  have heq : (a : ℚ) * s = b * s ↔ a = b := by
    rw [mul_left_inj' hs.ne']
    exact Nat.cast_inj
  unfold before Precedes
  rw [hle, heq]
  cases I.closed with
  | true => simp
  | false =>
    have hlt : a < b ↔ a ≤ b ∧ a ≠ b := by omega
    simpa using hlt

/-! ### The multiples of a power of ten next to the number -/

section Multiple

variable (I e)

/-- The largest multiple of `10 ^ e` that does not exceed the number, as a factor of `10 ^ e`. -/
def multiple : Nat :=
  I.value * 10 ^ (-e).toNat / (I.den * 10 ^ e.toNat)

/-- What one stands for where ends and multiples are compared as integers. -/
def resolution : ℚ :=
  1 / (I.den * 10 ^ (-e).toNat)

variable {I e} (hI : I.Proper)

include hI

private theorem resolution_pos : 0 < I.resolution e := by
  have hden := hI.cast_den_pos
  unfold resolution
  positivity

private theorem div_den_eq (n : Nat) :
    (n : ℚ) / I.den = ((n * 10 ^ (-e).toNat : Nat) : ℚ) * I.resolution e := by
  have hden := hI.cast_den_pos
  unfold resolution
  push_cast
  field_simp

private theorem mul_zpow_eq (n : Nat) :
    (n : ℚ) * 10 ^ e = ((n * (I.den * 10 ^ e.toNat) : Nat) : ℚ) * I.resolution e := by
  have hden := hI.cast_den_pos
  unfold resolution
  rw [zpow_eq_div]
  push_cast
  field_simp

theorem multiple_le : (I.multiple e : ℚ) * 10 ^ e ≤ I.number := by
  have hfloor : I.multiple e * (I.den * 10 ^ e.toNat) ≤ I.value * 10 ^ (-e).toNat :=
    Nat.div_mul_le_self _ _
  rw [number, div_den_eq hI, mul_zpow_eq hI]
  exact mul_le_mul_of_nonneg_right (by exact_mod_cast hfloor) (resolution_pos hI).le

theorem number_lt_multiple : I.number < ((I.multiple e + 1 : Nat) : ℚ) * 10 ^ e := by
  have hpos : 0 < I.den * 10 ^ e.toNat := Nat.mul_pos hI.den_pos (Nat.pow_pos (by decide))
  have hceil : I.value * 10 ^ (-e).toNat < (I.multiple e + 1) * (I.den * 10 ^ e.toNat) :=
    Nat.lt_mul_of_div_lt (Nat.lt_succ_self _) hpos
  rw [number, div_den_eq hI, mul_zpow_eq hI]
  exact mul_lt_mul_of_pos_right (by exact_mod_cast hceil) (resolution_pos hI)

private theorem lower_iff :
    I.before (I.low * 10 ^ (-e).toNat) (I.multiple e * (I.den * 10 ^ e.toNat)) = true ↔
      I.Contains (I.multiple e * 10 ^ e) := by
  rw [before_iff (resolution_pos hI), ← div_den_eq hI, ← mul_zpow_eq hI,
    hI.contains_of_le_number (multiple_le hI)]

private theorem upper_iff :
    I.before ((I.multiple e + 1) * (I.den * 10 ^ e.toNat)) (I.high * 10 ^ (-e).toNat) = true ↔
      I.Contains ((I.multiple e + 1 : Nat) * 10 ^ e) := by
  rw [before_iff (resolution_pos hI), ← div_den_eq hI, ← mul_zpow_eq hI,
    hI.contains_of_number_le (number_lt_multiple hI).le]

private theorem nearer_iff :
    2 * (I.value * 10 ^ (-e).toNat - I.multiple e * (I.den * 10 ^ e.toNat)) <
        I.den * 10 ^ e.toNat ↔
      2 * (I.number - I.multiple e * 10 ^ e) < 10 ^ e := by
  have hfloor : I.multiple e * (I.den * 10 ^ e.toNat) ≤ I.value * 10 ^ (-e).toNat :=
    Nat.div_mul_le_self _ _
  have hone : (10 : ℚ) ^ e = ((I.den * 10 ^ e.toNat : Nat) : ℚ) * I.resolution e := by
    simpa using mul_zpow_eq hI 1
  rw [number, div_den_eq hI, mul_zpow_eq hI, hone, ← sub_mul, ← mul_assoc (2 : ℚ),
    mul_lt_mul_iff_left₀ (resolution_pos hI), ← Nat.cast_sub hfloor]
  exact_mod_cast Iff.rfl

theorem nearest?_cases :
    (I.nearest? e = some (I.multiple e) ∧ I.Contains (I.multiple e * 10 ^ e) ∧
        (I.Contains ((I.multiple e + 1 : Nat) * 10 ^ e) →
          2 * (I.number - I.multiple e * 10 ^ e) < 10 ^ e)) ∨
      (I.nearest? e = some (I.multiple e + 1) ∧ I.Contains ((I.multiple e + 1 : Nat) * 10 ^ e) ∧
        (I.Contains (I.multiple e * 10 ^ e) →
          10 ^ e ≤ 2 * (I.number - I.multiple e * 10 ^ e))) ∨
      (I.nearest? e = none ∧ ¬ I.Contains (I.multiple e * 10 ^ e) ∧
        ¬ I.Contains ((I.multiple e + 1 : Nat) * 10 ^ e)) := by
  have hchoice : I.nearest? e =
      if I.before (I.low * 10 ^ (-e).toNat) (I.multiple e * (I.den * 10 ^ e.toNat)) &&
          (!I.before ((I.multiple e + 1) * (I.den * 10 ^ e.toNat)) (I.high * 10 ^ (-e).toNat) ||
            decide (2 * (I.value * 10 ^ (-e).toNat - I.multiple e * (I.den * 10 ^ e.toNat)) <
              I.den * 10 ^ e.toNat)) then some (I.multiple e)
      else if I.before ((I.multiple e + 1) * (I.den * 10 ^ e.toNat)) (I.high * 10 ^ (-e).toNat)
        then some (I.multiple e + 1)
      else none := rfl
  rw [hchoice, ← lower_iff hI, ← upper_iff hI, ← not_lt, ← nearer_iff hI]
  generalize I.before (I.low * 10 ^ (-e).toNat) (I.multiple e * (I.den * 10 ^ e.toNat)) = lower
  generalize I.before ((I.multiple e + 1) * (I.den * 10 ^ e.toNat)) (I.high * 10 ^ (-e).toNat) =
    upper
  by_cases hlt : 2 * (I.value * 10 ^ (-e).toNat - I.multiple e * (I.den * 10 ^ e.toNat)) <
      I.den * 10 ^ e.toNat
  · cases lower <;> cases upper <;> simp [hlt]
  · cases lower <;> cases upper <;> simp [hlt]

end Multiple

/-- A multiple in the interval lies on one side of the number, and the neighbour on that side is in
the interval too and no farther away. -/
theorem contains_neighbour (hI : I.Proper) {n : Nat} (hn : I.Contains (n * 10 ^ e)) :
    (I.Contains (I.multiple e * 10 ^ e) ∧
        I.number - I.multiple e * 10 ^ e ≤ |n * 10 ^ e - I.number|) ∨
      (I.Contains ((I.multiple e + 1 : Nat) * 10 ^ e) ∧
        (I.multiple e + 1 : Nat) * 10 ^ e - I.number ≤ |n * 10 ^ e - I.number|) := by
  have hpos : (0 : ℚ) ≤ 10 ^ e := by positivity
  have hlower : (I.multiple e : ℚ) * 10 ^ e ≤ I.number := multiple_le hI
  have hupper : I.number < ((I.multiple e + 1 : Nat) : ℚ) * 10 ^ e := number_lt_multiple hI
  rcases Nat.lt_or_ge (I.multiple e) n with hlt | hge
  · have hle : ((I.multiple e + 1 : Nat) : ℚ) * 10 ^ e ≤ n * 10 ^ e :=
      mul_le_mul_of_nonneg_right (by exact_mod_cast hlt) hpos
    refine .inr ⟨hI.contains_of_ge hn hupper.le hle, ?_⟩
    rw [abs_of_nonneg (by linarith)]
    linarith
  · have hle : (n : ℚ) * 10 ^ e ≤ I.multiple e * 10 ^ e :=
      mul_le_mul_of_nonneg_right (by exact_mod_cast hge) hpos
    refine .inl ⟨hI.contains_of_le hn hle hlower, ?_⟩
    rw [abs_of_nonpos (by linarith)]
    linarith

theorem nearest?_eq_some (hI : I.Proper) {d : Nat} (h : I.nearest? e = some d) :
    I.Contains (d * 10 ^ e) ∧ (d : ℚ) * 10 ^ e ≤ I.number + 10 ^ e ∧
      ∀ n : Nat, I.Contains (n * 10 ^ e) →
        |d * 10 ^ e - I.number| ≤ |n * 10 ^ e - I.number| := by
  have hpos : (0 : ℚ) < 10 ^ e := by positivity
  have hlower : (I.multiple e : ℚ) * 10 ^ e ≤ I.number := multiple_le hI
  have hupper : I.number < ((I.multiple e + 1 : Nat) : ℚ) * 10 ^ e := number_lt_multiple hI
  have hnext : ((I.multiple e + 1 : Nat) : ℚ) * 10 ^ e = I.multiple e * 10 ^ e + 10 ^ e := by
    push_cast
    ring
  rcases nearest?_cases hI with ⟨heq, hmem, hnear⟩ | ⟨heq, hmem, hnear⟩ | ⟨heq, -⟩
  · obtain rfl := Option.some.inj (heq.symm.trans h)
    refine ⟨hmem, by linarith, fun n hn => ?_⟩
    rw [abs_of_nonpos (by linarith)]
    rcases contains_neighbour hI hn with ⟨-, hle⟩ | ⟨hmem', hle⟩
    · linarith
    · have hnearer := hnear hmem'
      linarith
  · obtain rfl := Option.some.inj (heq.symm.trans h)
    refine ⟨hmem, by linarith, fun n hn => ?_⟩
    rw [abs_of_nonneg (by linarith)]
    rcases contains_neighbour hI hn with ⟨hmem', hle⟩ | ⟨-, hle⟩
    · have hnearer := hnear hmem'
      linarith
    · linarith
  · rw [heq] at h
    cases h

theorem nearest?_eq_none (hI : I.Proper) (h : I.nearest? e = none) (n : Nat) :
    ¬ I.Contains (n * 10 ^ e) := by
  intro hn
  rcases nearest?_cases hI with ⟨heq, -⟩ | ⟨heq, -⟩ | ⟨-, hlower, hupper⟩
  · cases heq.symm.trans h
  · cases heq.symm.trans h
  · rcases contains_neighbour hI hn with ⟨hmem, -⟩ | ⟨hmem, -⟩
    · exact hlower hmem
    · exact hupper hmem

private theorem toDigits_bounds {n : Nat} (hn : 0 < n) :
    10 ^ ((Nat.toDigits 10 n).length - 1) ≤ n ∧ n < 10 ^ (Nat.toDigits 10 n).length := by
  have hlen : 0 < (Nat.toDigits 10 n).length := Nat.length_toDigits_pos
  refine ⟨?_, (Nat.length_toDigits_le_iff (by decide) hlen).1 le_rfl⟩
  rcases Nat.eq_zero_or_pos ((Nat.toDigits 10 n).length - 1) with hone | hmore
  · rw [hone]
    exact hn
  · apply Nat.le_of_not_lt
    rw [← Nat.length_toDigits_le_iff (by decide) hmore]
    omega

theorem magnitude_spec (hI : I.Proper) :
    (10 : ℚ) ^ (I.magnitude - 1) ≤ I.number ∧ I.number < 10 ^ I.magnitude := by
  have hden := hI.cast_den_pos
  have hplaces := (toDigits_bounds hI.den_pos).2
  have hvalue : 0 < I.value := Nat.lt_trans hI.low_pos hI.low_lt
  unfold magnitude
  dsimp only
  generalize (Nat.toDigits 10 I.den).length = places at hplaces ⊢
  have hquotient : 0 < I.value * 10 ^ places / I.den := by
    refine Nat.div_pos ?_ hI.den_pos
    exact hplaces.le.trans (Nat.le_mul_of_pos_left _ hvalue)
  have hlen : 1 ≤ (Nat.toDigits 10 (I.value * 10 ^ places / I.den)).length :=
    Nat.length_toDigits_pos
  obtain ⟨hlow, hhigh⟩ := toDigits_bounds hquotient
  generalize (Nat.toDigits 10 (I.value * 10 ^ places / I.den)).length = len at hlen hlow hhigh ⊢
  rw [Nat.le_div_iff_mul_le hI.den_pos] at hlow
  rw [Nat.div_lt_iff_lt_mul hI.den_pos] at hhigh
  have hshift : (10 : ℚ) ^ ((len : Int) - places) = 10 ^ len / 10 ^ places := by
    rw [zpow_sub₀ (by norm_num), zpow_natCast, zpow_natCast]
  have hshift' : (10 : ℚ) ^ ((len : Int) - places - 1) = 10 ^ (len - 1) / 10 ^ places := by
    rw [show (len : Int) - places - 1 = (len - 1 : Nat) - places by omega,
      zpow_sub₀ (by norm_num), zpow_natCast, zpow_natCast]
  rw [hshift, hshift', number, div_le_div_iff₀ (by positivity) hden,
    div_lt_div_iff₀ hden (by positivity)]
  exact ⟨by exact_mod_cast hlow, by exact_mod_cast hhigh⟩

/-- A member of few digits has a member beside it, on the grid of as many digits and no farther from
the number. If it is not on the grid itself, it lies below the power of ten before the number. -/
theorem exists_on_grid (hI : I.Proper) {j : Nat} (hx : I.Contains x) (hj : HasDigits j x) :
    1 ≤ j ∧ ∃ n : Nat, I.Contains (n * 10 ^ (I.magnitude - j)) ∧
      |n * 10 ^ (I.magnitude - j) - I.number| ≤ |x - I.number| := by
  obtain ⟨hpower, -⟩ := magnitude_spec hI
  have hpos := hI.pos_of_contains hx
  obtain ⟨m, q, hm, rfl⟩ := hj
  have hone : 1 ≤ j := by
    by_contra hzero
    obtain rfl : j = 0 := by omega
    obtain rfl : m = 0 := by simpa using hm
    simp at hpos
  refine ⟨hone, ?_⟩
  rcases le_or_gt (I.magnitude - j) q with hle | hlt
  · refine ⟨m * 10 ^ (q - (I.magnitude - j)).toNat, ?_⟩
    have heq : ((m * 10 ^ (q - (I.magnitude - j)).toNat : Nat) : ℚ) * 10 ^ (I.magnitude - j) =
        m * 10 ^ q := by
      push_cast
      rw [mul_assoc, ← zpow_natCast, ← zpow_add₀ (by norm_num), Int.toNat_of_nonneg (by omega)]
      congr 2
      omega
    rw [heq]
    exact ⟨hx, le_rfl⟩
  · refine ⟨10 ^ (j - 1), ?_⟩
    have heq : ((10 ^ (j - 1) : Nat) : ℚ) * 10 ^ (I.magnitude - j) = 10 ^ (I.magnitude - 1) := by
      push_cast
      rw [← zpow_natCast, ← zpow_add₀ (by norm_num)]
      congr 1
      omega
    have hbelow : (m : ℚ) * 10 ^ q ≤ 10 ^ (I.magnitude - 1) := by
      calc (m : ℚ) * 10 ^ q ≤ 10 ^ j * 10 ^ q := by
            apply mul_le_mul_of_nonneg_right _ (by positivity)
            exact_mod_cast hm.le
        _ = 10 ^ (j + q) := by rw [← zpow_natCast, ← zpow_add₀ (by norm_num)]
        _ ≤ 10 ^ (I.magnitude - 1) := zpow_le_zpow_right₀ (by norm_num) (by omega)
    rw [heq]
    refine ⟨hI.contains_of_le hx hbelow hpower, ?_⟩
    rw [abs_of_nonpos (by linarith), abs_of_nonpos (by linarith)]
    linarith

theorem shortestFrom_eq (k : Int) {grids digits n : Nat} (hle : digits ≤ n)
    (hlt : n < digits + grids) (hn : I.nearest? (k - n) ≠ none) :
    ∃ j d, digits ≤ j ∧ I.nearest? (k - j) = some d ∧
      (∀ i, digits ≤ i → i < j → I.nearest? (k - i) = none) ∧
      I.shortestFrom k grids digits = Decimal.strip d (k - j) := by
  induction grids generalizing digits with
  | zero => omega
  | succ grids ih =>
    cases hhit : I.nearest? (k - digits) with
    | some d =>
      refine ⟨digits, d, le_rfl, hhit, fun i hi hlt => by omega, ?_⟩
      rw [shortestFrom, hhit]
    | none =>
      have hne : digits ≠ n := fun heq => hn (heq ▸ hhit)
      obtain ⟨j, d, hj, hd, hnone, heq⟩ := ih (show digits + 1 ≤ n by omega) (by omega)
      refine ⟨j, d, by omega, hd, fun i hi hlt => ?_, ?_⟩
      · rcases Nat.eq_or_lt_of_le hi with rfl | hi
        · exact hhit
        · exact hnone i hi hlt
      · rw [shortestFrom, hhit]
        exact heq

theorem nearest?_ne_none (hI : I.Proper) (h : I.number + 10 ^ e < I.high / I.den) :
    I.nearest? e ≠ none := by
  intro hnone
  have hlower : (I.multiple e : ℚ) * 10 ^ e ≤ I.number := multiple_le hI
  apply nearest?_eq_none hI hnone (I.multiple e + 1)
  rw [hI.contains_of_number_le (number_lt_multiple hI).le]
  apply precedes_of_lt
  push_cast
  linarith

/-- `x` is a member of the fewest digits, and the nearest such member to the number. -/
structure IsShortest (I : Interval) (x : ℚ) : Prop where
  mem : I.Contains x
  digits : ∃ n, HasDigits n x ∧ ∀ y, I.Contains y →
    (∀ j, HasDigits j y → n ≤ j) ∧ (HasDigits n y → |x - I.number| ≤ |y - I.number|)

/-- Rounding up to the next power of ten leaves one digit. -/
private theorem hasDigits_of_le {n d : Nat} {k : Int} (hn : 1 ≤ n)
    (h : (d : ℚ) * 10 ^ (k - n) < 10 ^ k + 10 ^ (k - n)) : HasDigits n (d * 10 ^ (k - n)) := by
  have hpos : (0 : ℚ) < 10 ^ (k - n) := by positivity
  have hpower : (10 : ℚ) ^ k = 10 ^ n * 10 ^ (k - n) := by
    rw [← zpow_natCast, ← zpow_add₀ (by norm_num)]
    congr 1
    omega
  have hlt : d < 10 ^ n + 1 := by
    rw [hpower, ← add_one_mul, mul_lt_mul_iff_left₀ hpos] at h
    exact_mod_cast h
  rcases Nat.lt_or_eq_of_le (Nat.le_of_lt_succ hlt) with hlt | rfl
  · exact ⟨d, k - n, hlt, rfl⟩
  · refine ⟨1, k, Nat.one_lt_pow (by omega) (by decide), ?_⟩
    rw [hpower]
    push_cast
    ring

theorem isShortest_of_first (hI : I.Proper) {n d : Nat} (hn : 1 ≤ n)
    (hd : I.nearest? (I.magnitude - n) = some d)
    (hnone : ∀ i, 1 ≤ i → i < n → I.nearest? (I.magnitude - i) = none) :
    I.IsShortest (d * 10 ^ (I.magnitude - n)) := by
  obtain ⟨hmem, hle, hnearest⟩ := nearest?_eq_some hI hd
  refine ⟨hmem, n, ?_, fun y hy => ⟨fun j hj => ?_, fun hj => ?_⟩⟩
  · have hpower := (magnitude_spec hI).2
    exact hasDigits_of_le hn (by linarith)
  · obtain ⟨hone, t, ht, -⟩ := exists_on_grid hI hy hj
    by_contra hlt
    exact nearest?_eq_none hI (hnone j hone (by omega)) t ht
  · obtain ⟨-, t, ht, hdist⟩ := exists_on_grid hI hy hj
    exact (hnearest t ht).trans hdist

end Interval

namespace Format

variable {F : Format} {m : Nat}

/-- The finest grid of the search is finer than half of the last place. -/
theorem nearest?_interval_ne_none (hm : 0 < m) (hlt : m < 2 ^ (F.fractionBits + 1)) (e : Int) :
    (F.interval m e).nearest? ((F.interval m e).magnitude - (F.fractionBits + 2 : Nat)) ≠ none := by
  have hI : (F.interval m e).Proper := proper_interval hm e
  have hhigh : ((F.interval m e).high : ℚ) / (F.interval m e).den = m * 2 ^ e + 2 ^ e / 2 := by
    unfold interval
    rw [quarters]
    push_cast
    ring
  have hpower := (Interval.magnitude_spec hI).1
  have hplace : (0 : ℚ) < 2 ^ e := by positivity
  have hm' : (m : ℚ) ≤ 2 ^ (F.fractionBits + 1) := by exact_mod_cast hlt.le
  apply Interval.nearest?_ne_none hI
  rw [hhigh]
  rw [number_interval] at hpower ⊢
  generalize (F.interval m e).magnitude = k at hpower ⊢
  have hgrid : (10 : ℚ) ^ (k - 1) = 2 ^ (F.fractionBits + 1) * 5 ^ (F.fractionBits + 1) *
      10 ^ (k - (F.fractionBits + 2 : Nat)) := by
    rw [← mul_pow, ← zpow_natCast, show (2 * 5 : ℚ) = 10 by norm_num, ← zpow_add₀ (by norm_num)]
    congr 1
    push_cast
    ring
  have hfive : (5 : ℚ) ≤ 5 ^ (F.fractionBits + 1) := le_self_pow₀ (by norm_num) (by omega)
  have hbound : (2 : ℚ) ^ (F.fractionBits + 1) * (5 * 10 ^ (k - (F.fractionBits + 2 : Nat))) ≤
      2 ^ (F.fractionBits + 1) * 2 ^ e := by
    calc (2 : ℚ) ^ (F.fractionBits + 1) * (5 * 10 ^ (k - (F.fractionBits + 2 : Nat)))
        ≤ 2 ^ (F.fractionBits + 1) * (5 ^ (F.fractionBits + 1) *
            10 ^ (k - (F.fractionBits + 2 : Nat))) := by gcongr
      _ = 10 ^ (k - 1) := by rw [hgrid, mul_assoc]
      _ ≤ m * 2 ^ e := hpower
      _ ≤ 2 ^ (F.fractionBits + 1) * 2 ^ e := by gcongr
  have hgrid' := le_of_mul_le_mul_left hbound (by positivity)
  linarith

theorem isShortest_shortest (hm : 0 < m) (hlt : m < 2 ^ (F.fractionBits + 1)) (e : Int) :
    (F.interval m e).IsShortest (F.shortest m e).value ∧
      (F.shortest m e).coefficient % 10 ≠ 0 := by
  have hI : (F.interval m e).Proper := proper_interval hm e
  obtain ⟨n, d, hn, hd, hnone, heq⟩ := Interval.shortestFrom_eq (F.interval m e).magnitude
    (show 1 ≤ F.fractionBits + 2 by omega) (show _ < 1 + (F.fractionBits + 2) by omega)
    (nearest?_interval_ne_none hm hlt e)
  have hshortest := Interval.isShortest_of_first hI hn hd hnone
  have hd : d ≠ 0 := by
    intro hzero
    have hpos := hI.pos_of_contains hshortest.mem
    simp [hzero] at hpos
  unfold shortest
  rw [heq, Decimal.value_strip]
  exact ⟨hshortest, Decimal.coefficient_strip_mod hd _⟩

end Format
end WasmBinary.Ieee
