import WasmBinary.Leb128
import WasmBinary.Proofs.Format.Basic

/-! The formats of LEB128 integers, minimal or padded, and the decoders that follow them. -/
namespace WasmBinary.Leb128

open Decoder

/-- The number whose groups of seven bits the bytes hold, lowest first. -/
def groups : List UInt8 → Nat
  | [] => 0
  | b :: bs => b.toNat % 128 + 128 * groups bs

/-- The same groups as a number in two's complement. -/
def signedGroups (bs : List UInt8) : Int :=
  if 2 * groups bs < 128 ^ bs.length then groups bs else groups bs - 128 ^ bs.length

/-- Exactly the last byte has its top bit clear. -/
def Delimited : List UInt8 → Prop
  | [] => False
  | [b] => b.toNat < 128
  | b :: b' :: bs => 128 ≤ b.toNat ∧ Delimited (b' :: bs)

/-- The encodings of `n` as an unsigned integer of `width` bits. -/
structure Unsigned (width : Nat) (bs : List UInt8) (n : Nat) : Prop where
  delimited : Delimited bs
  length : bs.length ≤ (width + 6) / 7
  value : groups bs = n
  upper : n < 2 ^ width

/-- The encodings of `n` as a signed integer of `width` bits. -/
structure Signed (width : Nat) (bs : List UInt8) (n : Int) : Prop where
  delimited : Delimited bs
  length : bs.length ≤ (width + 6) / 7
  value : signedGroups bs = n
  lower : -2 ^ (width - 1) ≤ n
  upper : n < 2 ^ (width - 1)

theorem Unsigned.ne_nil {width n : Nat} {bs : List UInt8} (h : Unsigned width bs n) :
    bs ≠ [] := by
  intro h
  subst h
  exact h.delimited

private theorem groups_singleton (b : UInt8) : groups [b] = payload b := by
  simp [groups, payload]

theorem continues_iff {b : UInt8} : continues b = true ↔ 128 ≤ b.toNat := by
  simp [continues]

theorem payload_lt (b : UInt8) : payload b < 128 :=
  Nat.mod_lt _ (by decide)

theorem signedPayload_mem {bits : Nat} (hbits : 7 ≤ bits) (b : UInt8) :
    -2 ^ (bits - 1) ≤ signedPayload b ∧ signedPayload b < 2 ^ (bits - 1) := by
  have hp := payload_lt b
  have hpow : (2 : Int) ^ 6 ≤ 2 ^ (bits - 1) := by
    exact_mod_cast Nat.pow_le_pow_right (n := 2) (by decide) (by omega)
  unfold signedPayload
  split <;> omega

theorem two_pow_eq_mul {bits : Nat} (hb : 7 < bits) : 2 ^ bits = 128 * 2 ^ (bits - 7) := by
  rw [show 128 = 2 ^ 7 by rfl, ← Nat.pow_add]
  congr 1
  omega

theorem unsigned_last {bits n : Nat} (hbits : 0 < bits) {b : UInt8} (hb : ¬ continues b)
    {bs : List UInt8} :
    Unsigned bits (b :: bs) n ↔ payload b < 2 ^ bits ∧ bs = [] ∧ n = payload b := by
  have hv := groups_singleton b
  rw [continues_iff] at hb
  constructor
  · intro h
    obtain ⟨hd, -, rfl, hu⟩ := h
    cases bs with
    | nil => exact ⟨hv ▸ hu, rfl, hv⟩
    | cons b' bs => exact absurd hd.1 hb
  · intro h
    obtain ⟨hu, rfl, rfl⟩ := h
    refine ⟨by simpa [Delimited] using hb, ?_, hv, hu⟩
    rw [List.length_singleton]
    omega

theorem unsigned_more {bits n : Nat} {b : UInt8} (hb : continues b) {bs : List UInt8} :
    Unsigned bits (b :: bs) n ↔
      7 < bits ∧ ∃ m, Unsigned (bits - 7) bs m ∧ n = payload b + 128 * m := by
  have hp := payload_lt b
  rw [continues_iff] at hb
  constructor
  · intro h
    obtain ⟨hd, hl, rfl, hu⟩ := h
    cases bs with
    | nil => exact absurd hd (by simpa [Delimited] using hb)
    | cons b' bs =>
      simp only [List.length_cons] at hl
      have hbits : 7 < bits := by omega
      have h2 := two_pow_eq_mul hbits
      refine ⟨hbits, groups (b' :: bs), ⟨hd.2, ?_, rfl, ?_⟩, rfl⟩
      · simp only [List.length_cons]
        omega
      · rw [groups] at hu
        omega
  · intro h
    obtain ⟨hbits, m, ⟨hd, hl, rfl, hu⟩, rfl⟩ := h
    cases bs with
    | nil => exact hd.elim
    | cons b' bs =>
      have h2 := two_pow_eq_mul hbits
      simp only [List.length_cons] at hl
      refine ⟨⟨hb, hd⟩, ?_, rfl, by omega⟩
      simp only [List.length_cons]
      omega

theorem signedGroups_singleton (b : UInt8) : signedGroups [b] = signedPayload b := by
  unfold signedGroups signedPayload
  rw [groups_singleton, List.length_singleton]
  by_cases h : payload b < 64
  · rw [if_pos h, if_pos (by omega)]
  · rw [if_neg h, if_neg (by omega)]
    rfl

/-- The sign is that of the last group. -/
theorem signedGroups_cons (b b' : UInt8) (bs : List UInt8) :
    signedGroups (b :: b' :: bs) = payload b + 128 * signedGroups (b' :: bs) := by
  have hp := payload_lt b
  have hpow : 128 ^ (b :: b' :: bs).length = 128 * 128 ^ (b' :: bs).length := by
    rw [List.length_cons, Nat.pow_succ, Nat.mul_comm]
  have hpowInt : (128 : Int) ^ (b :: b' :: bs).length = 128 * 128 ^ (b' :: bs).length := by
    exact_mod_cast hpow
  obtain ⟨k, hk⟩ : ∃ k, 128 ^ (b' :: bs).length = 2 * k :=
    ⟨64 * 128 ^ bs.length, by rw [List.length_cons, Nat.pow_succ]; omega⟩
  have hg : groups (b :: b' :: bs) = payload b + 128 * groups (b' :: bs) := rfl
  unfold signedGroups
  rw [hpow, hpowInt, hg]
  by_cases h : 2 * groups (b' :: bs) < 128 ^ (b' :: bs).length
  · rw [if_pos h, if_pos (by omega)]
    omega
  · rw [if_neg h, if_neg (by omega)]
    omega

theorem signed_last {bits : Nat} {n : Int} (hbits : 0 < bits) {b : UInt8} (hb : ¬ continues b)
    {bs : List UInt8} :
    Signed bits (b :: bs) n ↔
      (-2 ^ (bits - 1) ≤ signedPayload b ∧ signedPayload b < 2 ^ (bits - 1)) ∧
        bs = [] ∧ n = signedPayload b := by
  have hv := signedGroups_singleton b
  rw [continues_iff] at hb
  constructor
  · intro h
    obtain ⟨hd, -, rfl, hlo, hu⟩ := h
    cases bs with
    | nil => exact ⟨⟨hv ▸ hlo, hv ▸ hu⟩, rfl, hv⟩
    | cons b' bs => exact absurd hd.1 hb
  · intro h
    obtain ⟨⟨hlo, hu⟩, rfl, rfl⟩ := h
    refine ⟨by simpa [Delimited] using hb, ?_, hv, hlo, hu⟩
    rw [List.length_singleton]
    omega

theorem signed_more {bits : Nat} {n : Int} {b : UInt8} (hb : continues b) {bs : List UInt8} :
    Signed bits (b :: bs) n ↔
      7 < bits ∧ ∃ m, Signed (bits - 7) bs m ∧ n = payload b + 128 * m := by
  have hp := payload_lt b
  have hpow : 7 < bits → (2 : Int) ^ (bits - 1) = 128 * 2 ^ (bits - 7 - 1) := by
    intro hbits
    have h2 : 2 ^ (bits - 1) = 128 * 2 ^ (bits - 7 - 1) := by
      rw [show 128 = 2 ^ 7 by rfl, ← Nat.pow_add]
      congr 1
      omega
    exact_mod_cast h2
  rw [continues_iff] at hb
  constructor
  · intro h
    obtain ⟨hd, hl, rfl, hlo, hu⟩ := h
    cases bs with
    | nil => exact absurd hd (by simpa [Delimited] using hb)
    | cons b' bs =>
      have hv := signedGroups_cons b b' bs
      simp only [List.length_cons] at hl
      have hbits : 7 < bits := by omega
      have h2 := hpow hbits
      rw [hv] at hlo hu
      refine ⟨hbits, signedGroups (b' :: bs), ⟨hd.2, ?_, rfl, by omega, by omega⟩, hv⟩
      simp only [List.length_cons]
      omega
  · intro h
    obtain ⟨hbits, m, ⟨hd, hl, rfl, hlo, hu⟩, rfl⟩ := h
    cases bs with
    | nil => exact hd.elim
    | cons b' bs =>
      have h2 := hpow hbits
      simp only [List.length_cons] at hl
      refine ⟨⟨hb, hd⟩, ?_, signedGroups_cons b b' bs, by omega, by omega⟩
      simp only [List.length_cons]
      omega

variable {E : DecodeError → Prop}

theorem follows_next (width start : Nat) :
    Follows E (fun bs b => bs = [b]) (next width start) where
  sound c b c' h := by
    unfold next at h
    split at h
    · next x m hx =>
      obtain ⟨rfl, rfl⟩ := EStateM.Result.ok.inj h
      exact (follows_byte (E := E)).sound hx
    · split at h
      · exact nomatch h
      · simp at h
  complete bs b hG c rest hc hp := by
    obtain ⟨c', hok, hp'⟩ := (follows_byte.complete hG).succeeds hc hp
    exact .inl ⟨c', by rw [next, hok], hp'⟩

private theorem follows_after_next {α β : Type} {H : Format α} (hH : ∀ m, ¬ H [] m)
    {d : UInt8 → Decoder α} (hd : ∀ b, Follows E (fun bs m => H (b :: bs) m) (d b))
    (width start : Nat) (f : α → β) :
    Follows E (fun bs n => ∃ m, H bs m ∧ n = f m)
      (next width start >>= fun b => d b >>= fun m => pure (f m)) := by
  refine ((follows_next width start).bind fun b => (hd b).bind fun m =>
    follows_pure (f m)).congr fun bs n => ?_
  constructor
  · intro h
    obtain ⟨m, hm, rfl⟩ := h
    cases bs with
    | nil => exact absurd hm (hH m)
    | cons b bs => exact ⟨[b], bs, b, rfl, rfl, bs, [], m, by simp, hm, rfl, rfl⟩
  · intro h
    obtain ⟨_, _, b, rfl, rfl, bs, _, m, rfl, hm, rfl, rfl⟩ := h
    exact ⟨m, by simpa using hm, rfl⟩

private theorem follows_unsignedFrom_last (width start more : Nat) {bits : Nat} (hbits : 0 < bits)
    {b : UInt8} (hb : ¬ continues b) :
    Follows E (fun bs n => Unsigned bits (b :: bs) n) (unsignedFrom width start more bits b) := by
  have hlast : unsignedFrom width start more bits b =
      if 2 ^ bits ≤ payload b then failAt start (.malformedInteger width .tooLarge)
      else pure (payload b) := by
    unfold unsignedFrom
    simp [hb]
  rw [hlast]
  split
  · next hge =>
    refine (follows_failAt _ _).congr fun bs n => ⟨fun h => ?_, False.elim⟩
    have hlt := ((unsigned_last hbits hb).1 h).1
    omega
  · next hlt =>
    refine (follows_pure _).congr fun bs n => ?_
    rw [unsigned_last hbits hb, Format.pure]
    exact ⟨fun h => h.2, fun h => ⟨by omega, h⟩⟩

theorem follows_unsignedFrom (width start : Nat) {more bits : Nat} (hbits : 0 < bits)
    (hmore : more = moreBytes bits) (b : UInt8) :
    Follows E (fun bs n => Unsigned bits (b :: bs) n) (unsignedFrom width start more bits b) := by
  unfold moreBytes at hmore
  induction more generalizing bits b with
  | zero =>
    by_cases hb : continues b
    · -- At most seven bits are left, so no byte may follow, and both refusals are right.
      have hnone : ∀ cause, Follows E (fun bs n => Unsigned bits (b :: bs) n)
          (failAt start cause) := by
        intro cause
        refine (follows_failAt start cause).congr fun bs n => ⟨fun h => ?_, False.elim⟩
        have hlt := ((unsigned_more hb).1 h).1
        omega
      unfold unsignedFrom
      split
      · exact hnone _
      · rw [if_neg (by simp [hb])]
        exact hnone _
    · exact follows_unsignedFrom_last width start 0 hbits hb
  | succ more ih =>
    by_cases hb : continues b
    · have hlt : 7 < bits := by omega
      have h2 := two_pow_eq_mul hlt
      have hpos : 0 < 2 ^ (bits - 7) := Nat.two_pow_pos _
      have hp := payload_lt b
      have hrest := fun b' => @ih (bits - 7) (by omega) (by omega) b'
      unfold unsignedFrom
      rw [if_neg (by omega), if_neg (by simp [hb])]
      refine (follows_after_next (fun m h => h.ne_nil rfl) hrest width start
        fun m => payload b + 128 * m).congr fun bs n => ?_
      rw [unsigned_more hb]
      exact ⟨fun h => h.2, fun h => ⟨hlt, h⟩⟩
    · exact follows_unsignedFrom_last width start (more + 1) hbits hb

private theorem follows_signedFrom_last (width start more : Nat) {bits : Nat} (hbits : 0 < bits)
    {b : UInt8} (hb : ¬ continues b) :
    Follows E (fun bs n => Signed bits (b :: bs) n) (signedFrom width start more bits b) := by
  unfold signedFrom
  rw [if_pos (by simpa using hb)]
  split
  · next hrange =>
    refine (follows_pure _).congr fun bs n => ?_
    rw [signed_last hbits hb, Format.pure]
    exact ⟨fun h => h.2, fun h => ⟨hrange, h⟩⟩
  · next hrange =>
    refine (follows_failAt _ _).congr fun bs n => ⟨fun h => ?_, False.elim⟩
    exact hrange ((signed_last hbits hb).1 h).1

theorem follows_signedFrom (width start : Nat) {more bits : Nat} (hbits : 0 < bits)
    (hmore : more = moreBytes bits) (b : UInt8) :
    Follows E (fun bs n => Signed bits (b :: bs) n) (signedFrom width start more bits b) := by
  unfold moreBytes at hmore
  induction more generalizing bits b with
  | zero =>
    by_cases hb : continues b
    · unfold signedFrom
      rw [if_neg (by simp [hb])]
      refine (follows_failAt _ _).congr fun bs n => ⟨fun h => ?_, False.elim⟩
      have hlt := ((signed_more hb).1 h).1
      omega
    · exact follows_signedFrom_last width start 0 hbits hb
  | succ more ih =>
    by_cases hb : continues b
    · have hlt : 7 < bits := by omega
      have hrest := fun b' => @ih (bits - 7) (by omega) (by omega) b'
      unfold signedFrom
      rw [if_neg (by simp [hb])]
      refine (follows_after_next (fun m h => h.delimited) hrest width start
        fun m => payload b + 128 * m).congr fun bs n => ?_
      rw [signed_more hb]
      exact ⟨fun h => h.2, fun h => ⟨hlt, h⟩⟩
    · exact follows_signedFrom_last width start (more + 1) hbits hb

theorem follows_unsigned {width : Nat} (hw : 0 < width) :
    Follows E (Unsigned width) (unsigned width) := by
  refine .position fun start => ?_
  refine ((follows_next width start).bind fun b =>
    follows_unsignedFrom width start hw rfl b).congr fun bs n => ?_
  constructor
  · intro h
    cases bs with
    | nil => exact absurd rfl h.ne_nil
    | cons b bs => exact ⟨[b], bs, b, rfl, rfl, h⟩
  · intro h
    obtain ⟨_, bs, b, rfl, rfl, h⟩ := h
    exact h

theorem follows_signed {width : Nat} (hw : 0 < width) :
    Follows E (Signed width) (signed width) := by
  refine .position fun start => ?_
  refine ((follows_next width start).bind fun b =>
    follows_signedFrom width start hw rfl b).congr fun bs n => ?_
  constructor
  · intro h
    cases bs with
    | nil => exact h.delimited.elim
    | cons b bs => exact ⟨[b], bs, b, rfl, rfl, h⟩
  · intro h
    obtain ⟨_, bs, b, rfl, rfl, h⟩ := h
    exact h

def U32 (bs : List UInt8) (n : UInt32) : Prop :=
  Unsigned 32 bs n.toNat

theorem follows_u32 : Follows E U32 u32 :=
  (follows_unsigned (by decide)).mapInverse (fun _ => UInt32.ofNat_toNat)
    fun _ _ h => UInt32.toNat_ofNat_of_lt' h.upper

theorem follows_u64 : Follows E (fun bs n => Unsigned 64 bs n.toNat) u64 :=
  (follows_unsigned (by decide)).mapInverse (fun _ => UInt64.ofNat_toNat)
    fun _ _ h => UInt64.toNat_ofNat_of_lt' h.upper

theorem follows_i32 : Follows E (fun bs n => Signed 32 bs n.toInt) i32 :=
  (follows_signed (by decide)).mapInverse Int32.ofInt_toInt
    fun _ _ h => Int32.toInt_ofInt_of_le h.lower h.upper

theorem follows_i64 : Follows E (fun bs n => Signed 64 bs n.toInt) i64 :=
  (follows_signed (by decide)).mapInverse Int64.ofInt_toInt
    fun _ _ h => Int64.toInt_ofInt_of_le h.lower h.upper

end WasmBinary.Leb128
