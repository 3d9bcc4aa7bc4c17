import WasmBinary.Proofs.Leb128.Exact

/-! What is reported of an integer that takes all the bytes of its width. Its last byte can announce
another one and it can carry bits beyond the width. Where it does both, signed integers are too long
and unsigned ones too large. -/
namespace WasmBinary.Leb128

open Decoder

variable {α β : Type} {bs : List UInt8} {width start bits more p : Nat} {c : Cursor}
  {b last : UInt8} {fault? : Option IntegerFault}

/-! ### Bits beyond the width -/

/-- The bits of the width that are left for the last byte that it allows. -/
def lastBits (width : Nat) : Nat :=
  width - 7 * (maxBytes width - 1)

/-- Of the seven bits of a byte, one beyond the lowest `bits` is set. -/
def Excess (bits : Nat) (b : UInt8) : Prop :=
  ∃ i, bits ≤ i ∧ i < 7 ∧ b.toNat.testBit i = true

/-- Of the seven bits of a byte, one beyond the lowest `bits` is not a copy of their sign. -/
def SignedExcess (bits : Nat) (b : UInt8) : Prop :=
  ∃ i, bits ≤ i ∧ i < 7 ∧ b.toNat.testBit i ≠ b.toNat.testBit (bits - 1)

private theorem lt_two_pow_iff {n : Nat} {bit : Nat → Bool}
    (h : ∀ i, n.testBit i = (decide (i < 7) && bit i)) :
    n < 2 ^ bits ↔ ∀ i, bits ≤ i → i < 7 → bit i = false := by
  constructor
  · intro hlt i hle hi
    have hlt' : n < 2 ^ i := Nat.lt_of_lt_of_le hlt (Nat.pow_le_pow_right (by decide) hle)
    simpa [h, hi] using Nat.testBit_lt_two_pow hlt'
  · intro hclear
    refine Nat.lt_pow_two_of_testBit n fun i hle => ?_
    rw [h]
    by_cases hi : i < 7
    · simp [hclear i hle hi]
    · simp [hi]

private theorem payload_lt_iff : payload b < 2 ^ bits ↔
    ∀ i, bits ≤ i → i < 7 → b.toNat.testBit i = false :=
  lt_two_pow_iff (Nat.testBit_mod_two_pow b.toNat 7)

private theorem complement_lt_iff : 127 - payload b < 2 ^ bits ↔
    ∀ i, bits ≤ i → i < 7 → b.toNat.testBit i = true := by
  have hlt := payload_lt b
  have htest : ∀ i, (127 - payload b).testBit i = (decide (i < 7) && !(b.toNat.testBit i)) := by
    intro i
    have heq : 127 - payload b = 2 ^ 7 - (payload b + 1) := by omega
    rw [heq, Nat.testBit_two_pow_sub_succ hlt, payload, Nat.testBit_mod_two_pow b.toNat 7]
    cases decide (i < 7) <;> rfl
  simpa using lt_two_pow_iff htest

theorem excess_iff : Excess bits b ↔ 2 ^ bits ≤ payload b := by
  rw [← Nat.not_lt, payload_lt_iff]
  simp [Excess]

theorem signedPayload_mem_iff (hbits : bits < 7) :
    (-2 ^ bits ≤ signedPayload b ∧ signedPayload b < 2 ^ bits) ↔
      payload b < 2 ^ bits ∨ 127 - payload b < 2 ^ bits := by
  have hlt := payload_lt b
  have hpow : 2 ^ bits ≤ 2 ^ 6 := Nat.pow_le_pow_right (by decide) (by omega)
  have hcast : (2 : Int) ^ bits = ((2 ^ bits : Nat) : Int) := by push_cast; rfl
  rw [hcast, signedPayload]
  split <;> omega

theorem signedExcess_iff (hpos : 0 < bits) (hbits : bits ≤ 7) : SignedExcess bits b ↔
    ¬ (-2 ^ (bits - 1) ≤ signedPayload b ∧ signedPayload b < 2 ^ (bits - 1)) := by
  -- From the sign on, the bits are all clear or all set.
  have hsame : (-2 ^ (bits - 1) ≤ signedPayload b ∧ signedPayload b < 2 ^ (bits - 1)) ↔
      ∀ i, bits ≤ i → i < 7 → b.toNat.testBit i = b.toNat.testBit (bits - 1) := by
    rw [signedPayload_mem_iff (by omega), payload_lt_iff, complement_lt_iff]
    constructor
    · intro h i hle hi
      rcases h with h | h
      · rw [h i (by omega) hi, h (bits - 1) (Nat.le_refl _) (by omega)]
      · rw [h i (by omega) hi, h (bits - 1) (Nat.le_refl _) (by omega)]
    · intro h
      have hall : ∀ i, bits - 1 ≤ i → i < 7 → b.toNat.testBit i = b.toNat.testBit (bits - 1) := by
        intro i hle hi
        rcases Nat.eq_or_lt_of_le hle with rfl | hlt
        · rfl
        · exact h i (by omega) hi
      cases hsign : b.toNat.testBit (bits - 1) with
      | false => exact .inl fun i hle hi => (hall i hle hi).trans hsign
      | true => exact .inr fun i hle hi => (hall i hle hi).trans hsign
  rw [hsame]
  simp [SignedExcess]

/-! ### The last byte -/

/-- The fault of an unsigned integer whose last byte, with `bits` of the width left, is `b`. -/
def unsignedFault (bits : Nat) (b : UInt8) : Option IntegerFault :=
  if 2 ^ bits ≤ payload b then some .tooLarge
  else if continues b then some .tooLong
  else none

def signedFault (bits : Nat) (b : UInt8) : Option IntegerFault :=
  if continues b then some .tooLong
  else if -2 ^ (bits - 1) ≤ signedPayload b ∧ signedPayload b < 2 ^ (bits - 1) then none
  else some .tooLarge

theorem unsignedFault_eq_tooLarge_iff : unsignedFault bits b = some .tooLarge ↔ Excess bits b := by
  rw [excess_iff, unsignedFault]
  split
  · next h => simp [h]
  · next h => split <;> simp [h]

theorem unsignedFault_eq_tooLong_iff : unsignedFault bits b = some .tooLong ↔
    b.toNat.testBit 7 = true ∧ ¬ Excess bits b := by
  rw [excess_iff, testBit_seven, ← continues_iff, unsignedFault]
  split
  · next h => simp [h]
  · next h => split <;> simp_all

theorem signedFault_eq_tooLong_iff : signedFault bits b = some .tooLong ↔
    b.toNat.testBit 7 = true := by
  rw [testBit_seven, ← continues_iff, signedFault]
  split
  · next h => simp [h]
  · next h => split <;> simp [h]

theorem signedFault_eq_tooLarge_iff (hpos : 0 < bits) (hbits : bits ≤ 7) :
    signedFault bits b = some .tooLarge ↔ ¬ b.toNat.testBit 7 = true ∧ SignedExcess bits b := by
  rw [signedExcess_iff hpos hbits, testBit_seven, ← continues_iff, signedFault]
  split
  · next h => simp [h]
  · next h => split <;> simp_all

/-- The result of reading an integer that began at `start` and has this fault, if any. -/
def Reports (width start : Nat) (fault? : Option IntegerFault) :
    EStateM.Result DecodeError Cursor α → Prop
  | .ok _ _ => fault? = none
  | .error e _ => ∃ fault, fault? = some fault ∧ e = ⟨.malformedInteger width fault, start, none⟩

theorem Reports.map {d : Decoder α} (h : Reports width start fault? (d c)) (f : α → β) :
    Reports width start fault? ((f <$> d) c) := by
  rw [map_apply]
  cases hd : d c with
  | ok a m =>
    rw [hd] at h
    exact h
  | error e m =>
    rw [hd] at h
    exact h

private theorem reports_unsignedFrom_last :
    Reports width start (unsignedFault bits b) (unsignedFrom width start 0 bits b c) := by
  unfold unsignedFrom
  split
  · next hlarge => exact ⟨.tooLarge, if_pos hlarge, rfl⟩
  · next hfits =>
    split
    · next hb =>
      show unsignedFault bits b = none
      rw [unsignedFault, if_neg hfits, if_neg (by simpa using hb)]
    · next hb =>
      refine ⟨.tooLong, ?_, rfl⟩
      rw [unsignedFault, if_neg hfits, if_pos (by simpa using hb)]

private theorem reports_signedFrom_last :
    Reports width start (signedFault bits b) (signedFrom width start 0 bits b c) := by
  unfold signedFrom
  split
  · next hb =>
    split
    · next hrange =>
      show signedFault bits b = none
      rw [signedFault, if_neg (by simpa using hb), if_pos hrange]
    · next hrange =>
      refine ⟨.tooLarge, ?_, rfl⟩
      rw [signedFault, if_neg (by simpa using hb), if_neg hrange]
  · next hb => exact ⟨.tooLong, if_pos (by simpa using hb), rfl⟩

/-! ### The bytes before it -/

theorem unsignedFrom_of_continues (hbits : 7 ≤ bits) (hb : continues b = true) :
    unsignedFrom width start (more + 1) bits b = next width start >>= fun b' =>
      (fun rest => payload b + 128 * rest) <$> unsignedFrom width start more (bits - 7) b' := by
  have hfits : ¬ 2 ^ bits ≤ payload b := by
    have hlt := payload_lt b
    have hpow : 2 ^ 7 ≤ 2 ^ bits := Nat.pow_le_pow_right (by decide) hbits
    omega
  rw [unsignedFrom, if_neg hfits, if_neg (by simp [hb])]
  simp only [bind_pure_comp]

theorem signedFrom_of_continues (hb : continues b = true) :
    signedFrom width start (more + 1) bits b = next width start >>= fun b' =>
      (fun rest : Int => payload b + 128 * rest) <$> signedFrom width start more (bits - 7) b' := by
  rw [signedFrom, if_neg (by simp [hb])]
  simp only [bind_pure_comp]

theorem reports_next {before rest : List UInt8} {d : UInt8 → Decoder α}
    (hp : c.pending = before ++ last :: rest)
    (h : ∀ b m, b :: m.pending = before ++ last :: rest → Reports width start fault? (d b m)) :
    Reports width start fault? ((next width start >>= d) c) := by
  obtain ⟨b, rest', hb⟩ : ∃ b rest', before ++ last :: rest = b :: rest' :=
    List.exists_cons_of_ne_nil (by simp)
  have hnext : next width start c =
      .ok b { c with pending := rest', position := c.position + 1 } := by
    unfold next byte
    rw [hp, hb]
  rw [bind_apply, hnext]
  exact h b _ hb.symm

/-- A loop over the bytes of an integer: a byte that continues adds seven bits to what the loop makes
of the bytes after it, and the last byte that is allowed decides. -/
structure Loop (width start : Nat) (d : (more bits : Nat) → UInt8 → Decoder α)
    (fault? : (bits : Nat) → UInt8 → Option IntegerFault) : Prop where
  last : ∀ bits b c, Reports width start (fault? bits b) (d 0 bits b c)
  step : ∀ more bits b, 7 ≤ bits → continues b = true →
    ∃ f : α → α, d (more + 1) bits b = next width start >>= fun b' => f <$> d more (bits - 7) b'

theorem loop_unsignedFrom : Loop width start (unsignedFrom width start) unsignedFault where
  last _ _ _ := reports_unsignedFrom_last
  step _ _ _ hbits hb := ⟨_, unsignedFrom_of_continues hbits hb⟩

theorem loop_signedFrom : Loop width start (signedFrom width start) signedFault where
  last _ _ _ := reports_signedFrom_last
  step _ _ _ _ hb := ⟨_, signedFrom_of_continues hb⟩

namespace Loop

variable {d : (more bits : Nat) → UInt8 → Decoder α}
  {fault? : (bits : Nat) → UInt8 → Option IntegerFault}

/-- Where `more` bytes continue before the last one, it is the last one that decides. -/
theorem reports (h : Loop width start d fault?) {before rest : List UInt8} (hbits : 7 * more < bits)
    (hp : b :: c.pending = before ++ last :: rest) (hlen : before.length = more)
    (hbefore : ∀ x ∈ before, continues x = true) :
    Reports width start (fault? (bits - 7 * more) last) (d more bits b c) := by
  -- Each byte before the last uses up seven bits, so `bits - 7 * more` stays the same.
  induction more generalizing bits b before c with
  | zero =>
    obtain rfl := List.eq_nil_of_length_eq_zero hlen
    obtain ⟨rfl, -⟩ := List.cons.inj hp
    exact h.last _ _ _
  | succ more ih =>
    obtain ⟨x, before, rfl⟩ := List.exists_cons_of_length_eq_add_one hlen
    obtain ⟨rfl, hpending⟩ := List.cons.inj hp
    obtain ⟨f, hstep⟩ := h.step more bits b (by omega) (hbefore b (by simp))
    rw [hstep]
    refine reports_next hpending fun b' m hm => ?_
    have hrest := ih (by omega : 7 * more < bits - 7) hm (by simpa using hlen)
      (fun x hx => hbefore x (by simp [hx]))
    rw [show bits - 7 * (more + 1) = bits - 7 - 7 * more by omega]
    exact hrest.map f

end Loop

/-! ### Integers of full length -/

/-- From the place `p` on there are as many bytes as the width allows, and all but the last of them
have their top bit set. -/
structure Exhausted (width : Nat) (bs : List UInt8) (p : Nat) : Prop where
  inside : p + maxBytes width ≤ bs.length
  continued : ∀ i < maxBytes width - 1, (bs.getD (p + i) 0).toNat.testBit 7 = true

def lastByte (width : Nat) (bs : List UInt8) (p : Nat) : UInt8 :=
  bs.getD (p + (maxBytes width - 1)) 0

private theorem Exhausted.exists_before (h : Exhausted width bs p) (hw : 0 < width) :
    ∃ before rest, bs.drop p = before ++ lastByte width bs p :: rest ∧
      before.length = moreBytes width ∧ ∀ x ∈ before, continues x = true := by
  have hinside := h.inside
  have hmore : maxBytes width = moreBytes width + 1 := by
    rw [maxBytes, moreBytes]
    omega
  refine ⟨(bs.drop p).take (moreBytes width), bs.drop (p + moreBytes width + 1), ?_, ?_, ?_⟩
  · have hlast : bs.drop (p + moreBytes width) =
        lastByte width bs p :: bs.drop (p + moreBytes width + 1) := by
      rw [List.drop_eq_getElem_cons (by omega), lastByte, hmore, Nat.add_sub_cancel,
        List.getD_eq_getElem?_getD, List.getElem?_eq_getElem (by omega), Option.getD_some]
    rw [← hlast, ← List.drop_drop, List.take_append_drop]
  · rw [List.length_take, List.length_drop]
    omega
  · intro x hx
    obtain ⟨i, hi, rfl⟩ := List.mem_iff_getElem.1 hx
    rw [List.length_take] at hi
    have hbit := h.continued i (by omega)
    rw [testBit_seven, List.getD_eq_getElem?_getD, List.getElem?_eq_getElem (by omega)] at hbit
    rw [continues_iff]
    simpa using hbit

private theorem lastBits_bounds (hw : 0 < width) : 0 < lastBits width ∧ lastBits width ≤ 7 := by
  rw [lastBits, maxBytes]
  omega

theorem Loop.reports_of_exhausted {d : (more bits : Nat) → UInt8 → Decoder α}
    {fault? : (bits : Nat) → UInt8 → Option IntegerFault} (h : Loop width c.position d fault?)
    (hw : 0 < width) (hc : c.Reads bs) (hex : Exhausted width bs c.position) :
    Reports width c.position (fault? (lastBits width) (lastByte width bs c.position))
      ((next width c.position >>= d (moreBytes width) width) c) := by
  obtain ⟨before, rest, hdrop, hlen, hbefore⟩ := hex.exists_before hw
  have hleft : width - 7 * moreBytes width = lastBits width := by
    rw [lastBits, maxBytes, moreBytes]
    omega
  have hlt : 7 * moreBytes width < width := by
    rw [moreBytes]
    omega
  rw [← hleft]
  exact reports_next (hc.pending.trans hdrop) fun b m hm => h.reports hlt hm hlen hbefore

theorem reports_unsigned (hw : 0 < width) (hc : c.Reads bs) (h : Exhausted width bs c.position) :
    Reports width c.position (unsignedFault (lastBits width) (lastByte width bs c.position))
      (unsigned width c) := by
  rw [unsigned, bind_apply, Decoder.position]
  exact loop_unsignedFrom.reports_of_exhausted hw hc h

theorem reports_signed (hw : 0 < width) (hc : c.Reads bs) (h : Exhausted width bs c.position) :
    Reports width c.position (signedFault (lastBits width) (lastByte width bs c.position))
      (signed width c) := by
  rw [signed, bind_apply, Decoder.position]
  exact loop_signedFrom.reports_of_exhausted hw hc h

/-! ### The meaning of the faults -/

/-- The last byte that the width allows announces another one. -/
def Overlong (width : Nat) (bs : List UInt8) (p : Nat) : Prop :=
  (lastByte width bs p).toNat.testBit 7 = true

/-- The last byte that the width allows carries bits beyond the width. -/
def Oversized (width : Nat) (bs : List UInt8) (p : Nat) : Prop :=
  Excess (lastBits width) (lastByte width bs p)

def SignedOversized (width : Nat) (bs : List UInt8) (p : Nat) : Prop :=
  SignedExcess (lastBits width) (lastByte width bs p)

def FailsWith (width : Nat) (fault : IntegerFault) (d : Decoder α) (c : Cursor) : Prop :=
  ∃ c', d c = .error ⟨.malformedInteger width fault, c.position, none⟩ c'

theorem Reports.failsWith_iff {d : Decoder α} {fault : IntegerFault}
    (h : Reports width c.position fault? (d c)) :
    FailsWith width fault d c ↔ fault? = some fault := by
  unfold FailsWith
  cases hd : d c with
  | ok a m =>
    rw [hd] at h
    have hnone : fault? = none := h
    simp [hnone]
  | error e m =>
    rw [hd] at h
    obtain ⟨fault', rfl, rfl⟩ := h
    simp

/-- The faults mean what they are documented to mean: an integer is too long if the last byte that
its width allows announces another one, and too large only if that byte is its last and carries bits
beyond the width. -/
def Documented (width : Nat) (beyond : Prop) (d : Decoder α) (bs : List UInt8) (c : Cursor) :
    Prop :=
  (Overlong width bs c.position → FailsWith width .tooLong d c) ∧
    (FailsWith width .tooLarge d c → ¬ Overlong width bs c.position ∧ beyond)

/-- What is reported of an unsigned integer of full length. Bits beyond the width come first, so the
faults mean what they should unless the last byte announces another one as well. -/
structure UnsignedFaults (width : Nat) (d : Decoder α) (bs : List UInt8) (c : Cursor) : Prop where
  tooLarge_iff : FailsWith width .tooLarge d c ↔ Oversized width bs c.position
  tooLong_iff : FailsWith width .tooLong d c ↔
    Overlong width bs c.position ∧ ¬ Oversized width bs c.position
  documented_iff : Documented width (Oversized width bs c.position) d bs c ↔
    ¬ (Overlong width bs c.position ∧ Oversized width bs c.position)

/-- What is reported of a signed integer of full length. That another byte is announced comes first,
so the faults always mean what they should. -/
structure SignedFaults (width : Nat) (d : Decoder α) (bs : List UInt8) (c : Cursor) : Prop where
  tooLong_iff : FailsWith width .tooLong d c ↔ Overlong width bs c.position
  tooLarge_iff : FailsWith width .tooLarge d c ↔
    ¬ Overlong width bs c.position ∧ SignedOversized width bs c.position
  documented : Documented width (SignedOversized width bs c.position) d bs c

theorem unsignedFaults {d : Decoder α} (h : Reports width c.position
      (unsignedFault (lastBits width) (lastByte width bs c.position)) (d c)) :
    UnsignedFaults width d bs c := by
  have hlarge : FailsWith width .tooLarge d c ↔ Oversized width bs c.position :=
    h.failsWith_iff.trans unsignedFault_eq_tooLarge_iff
  have hlong : FailsWith width .tooLong d c ↔
      Overlong width bs c.position ∧ ¬ Oversized width bs c.position :=
    h.failsWith_iff.trans unsignedFault_eq_tooLong_iff
  refine ⟨hlarge, hlong, ?_⟩
  rw [Documented, hlarge, hlong]
  constructor
  · intro hdocumented hboth
    exact (hdocumented.1 hboth.1).2 hboth.2
  · intro hnot
    exact ⟨fun hlong => ⟨hlong, fun hlarge => hnot ⟨hlong, hlarge⟩⟩,
      fun hlarge => ⟨fun hlong => hnot ⟨hlong, hlarge⟩, hlarge⟩⟩

theorem signedFaults {d : Decoder α} (hw : 0 < width) (h : Reports width c.position
      (signedFault (lastBits width) (lastByte width bs c.position)) (d c)) :
    SignedFaults width d bs c := by
  obtain ⟨hpos, hle⟩ := lastBits_bounds hw
  have hlong : FailsWith width .tooLong d c ↔ Overlong width bs c.position :=
    h.failsWith_iff.trans signedFault_eq_tooLong_iff
  have hlarge : FailsWith width .tooLarge d c ↔
      ¬ Overlong width bs c.position ∧ SignedOversized width bs c.position :=
    h.failsWith_iff.trans (signedFault_eq_tooLarge_iff hpos hle)
  exact ⟨hlong, hlarge, hlong.2, hlarge.1⟩

/-- What is reported of the integers of every width in use, wherever they begin. -/
theorem faults_of_full_length (hc : c.Reads bs) :
    (Exhausted 32 bs c.position → UnsignedFaults 32 u32 bs c) ∧
    (Exhausted 64 bs c.position → UnsignedFaults 64 u64 bs c) ∧
    (Exhausted 32 bs c.position → SignedFaults 32 i32 bs c) ∧
    (Exhausted 33 bs c.position → SignedFaults 33 s33 bs c) ∧
    (Exhausted 64 bs c.position → SignedFaults 64 i64 bs c) := by
  refine ⟨?_, ?_, ?_, ?_, ?_⟩
  · intro hex
    exact unsignedFaults ((reports_unsigned (by decide) hc hex).map _)
  · intro hex
    exact unsignedFaults ((reports_unsigned (by decide) hc hex).map _)
  · intro hex
    exact signedFaults (by decide) ((reports_signed (by decide) hc hex).map _)
  · intro hex
    exact signedFaults (by decide) (reports_signed (by decide) hc hex)
  · intro hex
    exact signedFaults (by decide) ((reports_signed (by decide) hc hex).map _)

/-- The last byte of `80 80 80 80 90` announces another one and has a bit beyond the width. A signed
integer of 32 bits is too long there, an unsigned one too large. -/
theorem faults_of_full_length_both : ∃ c : Cursor, c.position = 1 ∧
    c.Reads [0x00, 0x80, 0x80, 0x80, 0x80, 0x90] ∧
    FailsWith 32 .tooLong i32 c ∧ FailsWith 32 .tooLarge u32 c := by
  have hreads : Cursor.Reads [0x00, 0x80, 0x80, 0x80, 0x80, 0x90]
      ⟨[0x80, 0x80, 0x80, 0x80, 0x90], .endOfInput, 1, 6, 6, #[]⟩ :=
    ⟨rfl, by decide, rfl, rfl⟩
  have hex : Exhausted 32 [0x00, 0x80, 0x80, 0x80, 0x80, 0x90] 1 := ⟨by decide, by decide⟩
  have hlong : Overlong 32 [0x00, 0x80, 0x80, 0x80, 0x80, 0x90] 1 := rfl
  have hlarge : Oversized 32 [0x00, 0x80, 0x80, 0x80, 0x80, 0x90] 1 :=
    ⟨4, by decide, by decide, by decide⟩
  obtain ⟨hunsigned, -, hsigned, -, -⟩ := faults_of_full_length hreads
  exact ⟨_, rfl, hreads, (hsigned hex).tooLong_iff.2 hlong, (hunsigned hex).tooLarge_iff.2 hlarge⟩

/-- In `FF FF FF FF FF` the last byte that 32 bits allow announces another one, and what is reported
of an unsigned integer is that it is too large. -/
theorem u32_tooLarge_not_documented :
    Exhausted 32 [0xFF, 0xFF, 0xFF, 0xFF, 0xFF] 0 ∧ Overlong 32 [0xFF, 0xFF, 0xFF, 0xFF, 0xFF] 0 ∧
    FailsWith 32 .tooLarge u32 (.ofBytes [0xFF, 0xFF, 0xFF, 0xFF, 0xFF]) ∧
    ¬ Documented 32 (Oversized 32 [0xFF, 0xFF, 0xFF, 0xFF, 0xFF] 0) u32
      [0xFF, 0xFF, 0xFF, 0xFF, 0xFF] (.ofBytes [0xFF, 0xFF, 0xFF, 0xFF, 0xFF]) := by
  have hlong : Overlong 32 [0xFF, 0xFF, 0xFF, 0xFF, 0xFF] 0 := rfl
  have hfails : FailsWith 32 .tooLarge u32 (.ofBytes [0xFF, 0xFF, 0xFF, 0xFF, 0xFF]) := ⟨_, rfl⟩
  refine ⟨⟨by decide, by decide⟩, hlong, hfails, fun hdocumented => ?_⟩
  exact (hdocumented.2 hfails).1 hlong

end WasmBinary.Leb128
