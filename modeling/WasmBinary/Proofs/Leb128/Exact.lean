import Mathlib.Order.Nat
import WasmBinary.Proofs.Diagnosis.Decoder
import WasmBinary.Proofs.Leb128.Groups

/-! Integers are decoded exactly: the value is the sum of the groups, every other input is refused
where the integer begins, and each encoding of a value gives it back. -/
namespace WasmBinary

open Decoder

def Decoder.Returns {α : Type} (bs : List UInt8) (d : Decoder α) (c : Cursor) (v : α) (k : Nat) :
    Prop :=
  ∃ c', d c = .ok v c' ∧ c'.Reads bs ∧ c'.position = c.position + k

theorem Decoder.Follows.returns_iff {α : Type} {G : Format α} {d : Decoder α}
    (hd : Follows never G d) {bs : List UInt8} {c : Cursor} (hc : c.Reads bs) {v : α} {k : Nat} :
    Returns bs d c v k ↔ c.position + k ≤ bs.length ∧ G ((bs.drop c.position).take k) v := by
  constructor
  · intro h
    obtain ⟨c', hok, hc', hpos⟩ := h
    obtain ⟨xs, hp, hG⟩ := hd.sound hok
    have hlen : xs.length = k := by
      have hpos' := hp.position
      omega
    have hxs : (bs.drop c.position).take k = xs := by
      rw [← hc.pending, hp.pending, ← hlen, List.take_left]
    exact ⟨hpos ▸ hc'.position, hxs ▸ hG⟩
  · intro h
    obtain ⟨hle, hG⟩ := h
    have hsplit : c.pending = (bs.drop c.position).take k ++ (bs.drop c.position).drop k := by
      rw [hc.pending, List.take_append_drop]
    obtain ⟨c', hok, hp⟩ := (hd.complete hG).succeeds hc.honest hsplit
    have hlen : ((bs.drop c.position).take k).length = k := by
      rw [List.length_take, List.length_drop]
      omega
    exact ⟨c', hok, hc.passes hp, hlen ▸ hp.position⟩

namespace Leb128

variable {α : Type} {bs : List UInt8} {p width start : Nat} {c : Cursor}

/-! ### Refusals -/

/-- The result of reading an integer that began at `start`, from a stream that only ends: the one
error is that the integer is malformed. -/
def OnlyMalformed (width start : Nat) : EStateM.Result DecodeError Cursor α → Prop
  | .ok _ c => c.stop = .endOfInput
  | .error e _ => ∃ fault, e = ⟨.malformedInteger width fault, start, none⟩

theorem onlyMalformed_bind {β : Type} {d : Decoder α} {f : α → Decoder β}
    (h : OnlyMalformed width start (d c))
    (hf : ∀ a m, m.stop = .endOfInput → OnlyMalformed width start (f a m)) :
    OnlyMalformed width start ((d >>= f) c) := by
  rw [bind_apply]
  cases hd : d c with
  | ok a m =>
    rw [hd] at h
    exact hf a m h
  | error e m =>
    rw [hd] at h
    exact h

theorem onlyMalformed_next (hc : c.stop = .endOfInput) :
    OnlyMalformed width start (next width start c) := by
  cases hp : c.pending with
  | nil =>
    have hcut : next width start c = failAt start (.malformedInteger width .truncated) c := by
      unfold next byte
      rw [hp, hc]
      rfl
    rw [hcut]
    exact ⟨.truncated, rfl⟩
  | cons b rest =>
    have hok : next width start c =
        .ok b { c with pending := rest, position := c.position + 1 } := by
      unfold next byte
      rw [hp]
    rw [hok]
    exact hc

private theorem onlyMalformed_unsignedFrom {more bits : Nat} {b : UInt8}
    (hc : c.stop = .endOfInput) :
    OnlyMalformed width start (unsignedFrom width start more bits b c) := by
  induction more generalizing bits b c with
  | zero =>
    unfold unsignedFrom
    split
    · exact ⟨.tooLarge, rfl⟩
    · split
      · exact hc
      · exact ⟨.tooLong, rfl⟩
  | succ more ih =>
    unfold unsignedFrom
    split
    · exact ⟨.tooLarge, rfl⟩
    · split
      · exact hc
      · exact onlyMalformed_bind (onlyMalformed_next hc) fun b m hm =>
          onlyMalformed_bind (ih hm) fun n m' hm' => hm'

private theorem onlyMalformed_signedFrom {more bits : Nat} {b : UInt8} (hc : c.stop = .endOfInput) :
    OnlyMalformed width start (signedFrom width start more bits b c) := by
  induction more generalizing bits b c with
  | zero =>
    unfold signedFrom
    split
    · split
      · exact hc
      · exact ⟨.tooLarge, rfl⟩
    · exact ⟨.tooLong, rfl⟩
  | succ more ih =>
    unfold signedFrom
    split
    · split
      · exact hc
      · exact ⟨.tooLarge, rfl⟩
    · exact onlyMalformed_bind (onlyMalformed_next hc) fun b m hm =>
        onlyMalformed_bind (ih hm) fun n m' hm' => hm'

theorem onlyMalformed_unsigned (hc : c.stop = .endOfInput) :
    OnlyMalformed width c.position (unsigned width c) :=
  onlyMalformed_bind (d := next width c.position) (onlyMalformed_next hc) fun _ _ hm =>
    onlyMalformed_unsignedFrom hm

theorem onlyMalformed_signed (hc : c.stop = .endOfInput) :
    OnlyMalformed width c.position (signed width c) :=
  onlyMalformed_bind (d := next width c.position) (onlyMalformed_next hc) fun _ _ hm =>
    onlyMalformed_signedFrom hm

theorem onlyMalformed_map {β : Type} {d : Decoder α} (h : OnlyMalformed width start (d c))
    (f : α → β) : OnlyMalformed width start ((f <$> d) c) := by
  rw [← bind_pure_comp]
  exact onlyMalformed_bind h fun _ _ hm => hm

/-- The bytes from the place `p` on end before the integer does. -/
def CutOff (width : Nat) (bs : List UInt8) (p : Nat) : Prop :=
  (bs.drop p).length < maxBytes width ∧ ∀ b ∈ bs.drop p, b.toNat.testBit 7 = true

private theorem truncated_iff {fault : IntegerFault} {id : SectionId}
    (h : DecodeError.Fits bs id start ⟨.malformedInteger width fault, p, none⟩) :
    fault = .truncated ↔ CutOff width bs p := by
  have htrue := h.trueOf
  cases fault with
  | truncated =>
    exact iff_of_true rfl ⟨htrue.1, fun b hb => (testBit_seven b).2 (htrue.2 b hb)⟩
  | tooLong => exact iff_of_false (by simp) fun hcut => Nat.not_lt.2 htrue.1 hcut.1
  | tooLarge => exact iff_of_false (by simp) fun hcut => Nat.not_lt.2 htrue.1 hcut.1

/-- The decoder fails where the integer begins, and says that it is cut off just when it is. -/
def Refuses (width : Nat) (d : Decoder α) (bs : List UInt8) (c : Cursor) : Prop :=
  ∃ fault c', d c = .error ⟨.malformedInteger width fault, c.position, none⟩ c' ∧
    (fault = .truncated ↔ CutOff width bs c.position)

private theorem refuses_of_not_returns {G : Format α} {d : Decoder α} (hd : Follows never G d)
    (hexplains : Explains bs .code d) (honly : OnlyMalformed width c.position (d c))
    (hc : c.Reads bs) (hnone : ∀ v k, ¬ Returns bs d c v k) : Refuses width d bs c := by
  have hfits := hexplains hc
  cases hr : d c with
  | ok v m =>
    obtain ⟨xs, hp, -⟩ := hd.sound hr
    exact absurd ⟨m, hr, hc.passes hp, hp.position⟩ (hnone v xs.length)
  | error e m =>
    rw [hr] at honly hfits
    obtain ⟨fault, rfl⟩ := honly
    exact ⟨fault, m, hr, truncated_iff hfits⟩

/-! ### Recovered values -/

/-- The decoder returns `v` from the shortest encoding of `n`, in the fewest groups that hold it,
and from each longer one up to the most bytes that the width allows. -/
def Recovers (width : Nat) (d : Decoder α) (bs : List UInt8) (c : Cursor) (v : α) (n : Int)
    (Enough : Nat → Prop) : Prop :=
  ∃ fewest, IsLeast {more | Enough more} fewest ∧ fewest < maxBytes width ∧
    ∀ more rest, fewest ≤ more → more < maxBytes width →
      bs.drop c.position = inGroups more n ++ rest → Returns bs d c v (more + 1)

private theorem recovers_of_follows {G : Format α} {d : Decoder α} {v : α} {n : Int}
    {Enough : Nat → Prop} (hd : Follows never G d) (hc : c.Reads bs) (hw : 0 < width)
    (hlast : Enough (maxBytes width - 1)) (hmono : ∀ ⦃i j⦄, Enough i → i ≤ j → Enough j)
    (hG : ∀ more < maxBytes width, Enough more → G (inGroups more n) v) :
    Recovers width d bs c v n Enough := by
  classical
  have hleast := Nat.isLeast_find ⟨_, hlast⟩
  have hfewest := hleast.2 hlast
  have hpos := maxBytes_pos hw
  refine ⟨_, hleast, by omega, fun more rest hmore hlt hdrop => ?_⟩
  obtain ⟨hle, htake⟩ := take_inGroups hdrop
  rw [hd.returns_iff hc, htake]
  exact ⟨hle, hG more hlt (hmono hleast.1 hmore)⟩

/-! ### Exactness -/

/-- From where the cursor stands, the decoder reads exactly the encodings of the natural numbers
below `2 ^ width`, minimal or padded with zeros, and refuses everything else there. -/
structure ReadsUnsigned (width : Nat) (value : α → Nat) (d : Decoder α) (bs : List UInt8)
    (c : Cursor) : Prop where
  returns_iff : ∀ v k, Returns bs d c v k ↔ k ≤ maxBytes width ∧ Terminated bs c.position k ∧
    value v = groupSum bs c.position k ∧ value v < 2 ^ width
  refuses : (∀ v k, ¬ Returns bs d c v k) → Refuses width d bs c
  recovers : ∀ n < 2 ^ width, ∃ v, value v = n ∧ Recovers width d bs c v n (Holds n)

/-- The same for the integers from `-2 ^ (width - 1)` on and below `2 ^ (width - 1)`, in two's
complement and padded with their sign. -/
structure ReadsSigned (width : Nat) (value : α → Int) (d : Decoder α) (bs : List UInt8)
    (c : Cursor) : Prop where
  returns_iff : ∀ v k, Returns bs d c v k ↔ k ≤ maxBytes width ∧ Terminated bs c.position k ∧
    value v = signedGroupSum bs c.position k ∧
      -2 ^ (width - 1) ≤ value v ∧ value v < 2 ^ (width - 1)
  refuses : (∀ v k, ¬ Returns bs d c v k) → Refuses width d bs c
  recovers : ∀ n, -2 ^ (width - 1) ≤ n → n < 2 ^ (width - 1) →
    ∃ v, value v = n ∧ Recovers width d bs c v n (SignedHolds n)

theorem readsUnsigned {value : α → Nat} {d : Decoder α} (hw : 0 < width)
    (hd : Follows never (fun xs v => Unsigned width xs (value v)) d)
    (hvalue : ∀ n < 2 ^ width, ∃ v, value v = n) (hexplains : Explains bs .code d)
    (honly : OnlyMalformed width c.position (d c)) (hc : c.Reads bs) :
    ReadsUnsigned width value d bs c where
  returns_iff v k := by
    rw [hd.returns_iff hc]
    constructor
    · intro h
      obtain ⟨hle, hdelimited, hlength, hgroups, hupper⟩ := h
      rw [length_slice hle] at hlength
      rw [groups_slice hle] at hgroups
      exact ⟨hlength, (delimited_slice_iff hle).1 hdelimited, hgroups.symm, hupper⟩
    · intro h
      obtain ⟨hlength, ht, hgroups, hupper⟩ := h
      refine ⟨ht.inside, (delimited_slice_iff ht.inside).2 ht, ?_, ?_, hupper⟩
      · rw [length_slice ht.inside]
        exact hlength
      · rw [groups_slice ht.inside, hgroups]
  refuses := refuses_of_not_returns hd hexplains honly hc
  recovers n hn := by
    obtain ⟨v, rfl⟩ := hvalue n hn
    have hrecovers : Recovers width d bs c v (value v) (Holds (value v)) :=
      recovers_of_follows hd hc hw (holds_last hw hn) (fun _ _ => Holds.mono)
        fun more => unsigned_inGroups hn
    exact ⟨v, rfl, hrecovers⟩

theorem readsSigned {value : α → Int} {d : Decoder α} (hw : 0 < width)
    (hd : Follows never (fun xs v => Signed width xs (value v)) d)
    (hvalue : ∀ n, -2 ^ (width - 1) ≤ n → n < 2 ^ (width - 1) → ∃ v, value v = n)
    (hexplains : Explains bs .code d) (honly : OnlyMalformed width c.position (d c))
    (hc : c.Reads bs) : ReadsSigned width value d bs c where
  returns_iff v k := by
    rw [hd.returns_iff hc]
    constructor
    · intro h
      obtain ⟨hle, hdelimited, hlength, hgroups, hlower, hupper⟩ := h
      have ht := (delimited_slice_iff hle).1 hdelimited
      rw [length_slice hle] at hlength
      rw [signedGroups_slice hle ht.pos] at hgroups
      exact ⟨hlength, ht, hgroups.symm, hlower, hupper⟩
    · intro h
      obtain ⟨hlength, ht, hgroups, hlower, hupper⟩ := h
      refine ⟨ht.inside, (delimited_slice_iff ht.inside).2 ht, ?_, ?_, hlower, hupper⟩
      · rw [length_slice ht.inside]
        exact hlength
      · rw [signedGroups_slice ht.inside ht.pos, hgroups]
  refuses := refuses_of_not_returns hd hexplains honly hc
  recovers n hlower hupper := by
    obtain ⟨v, rfl⟩ := hvalue n hlower hupper
    have hrecovers : Recovers width d bs c v (value v) (SignedHolds (value v)) :=
      recovers_of_follows hd hc hw (signedHolds_last hw hlower hupper) (fun _ _ => SignedHolds.mono)
        fun more => signed_inGroups hlower hupper
    exact ⟨v, rfl, hrecovers⟩

/-- Unsigned integers are read exactly, wherever they begin. -/
theorem unsigned_exact (hc : c.Reads bs) :
    ReadsUnsigned 32 UInt32.toNat u32 bs c ∧ ReadsUnsigned 64 UInt64.toNat u64 bs c := by
  constructor
  · exact readsUnsigned (by decide) follows_u32
      (fun n hn => ⟨UInt32.ofNat n, UInt32.toNat_ofNat_of_lt' hn⟩) explains_u32
      (onlyMalformed_map (onlyMalformed_unsigned hc.stop) _) hc
  · exact readsUnsigned (by decide) follows_u64
      (fun n hn => ⟨UInt64.ofNat n, UInt64.toNat_ofNat_of_lt' hn⟩)
      ((explains_unsigned (by decide)).map _)
      (onlyMalformed_map (onlyMalformed_unsigned hc.stop) _) hc

/-- After the first byte of `00 FF FF FF FF 0F` stands the largest unsigned integer of 32 bits. -/
theorem unsigned_exact_largest :
    ∃ c : Cursor, c.position = 1 ∧ c.Reads [0x00, 0xFF, 0xFF, 0xFF, 0xFF, 0x0F] ∧
      Returns [0x00, 0xFF, 0xFF, 0xFF, 0xFF, 0x0F] u32 c 0xFFFFFFFF 5 := by
  have hreads : Cursor.Reads [0x00, 0xFF, 0xFF, 0xFF, 0xFF, 0x0F]
      ⟨[0xFF, 0xFF, 0xFF, 0xFF, 0x0F], .endOfInput, 1, 6, 6, #[]⟩ :=
    ⟨rfl, by decide, rfl, rfl⟩
  refine ⟨_, rfl, hreads, ((unsigned_exact hreads).1.returns_iff _ _).2 ⟨by decide, ?_, ?_, ?_⟩⟩
  · exact ⟨by decide, by decide, by decide, by decide⟩
  · decide
  · decide

/-- Signed integers are read exactly, wherever they begin. -/
theorem signed_exact (hc : c.Reads bs) :
    ReadsSigned 32 Int32.toInt i32 bs c ∧ ReadsSigned 33 id s33 bs c ∧
      ReadsSigned 64 Int64.toInt i64 bs c := by
  refine ⟨?_, ?_, ?_⟩
  · exact readsSigned (by decide) follows_i32
      (fun n hlower hupper => ⟨Int32.ofInt n, Int32.toInt_ofInt_of_le hlower hupper⟩)
      ((explains_signed (by decide)).map _)
      (onlyMalformed_map (onlyMalformed_signed hc.stop) _) hc
  · exact readsSigned (by decide) (follows_signed (by decide)) (fun n _ _ => ⟨n, rfl⟩)
      (explains_signed (by decide)) (onlyMalformed_signed hc.stop) hc
  · exact readsSigned (by decide) follows_i64
      (fun n hlower hupper => ⟨Int64.ofInt n, Int64.toInt_ofInt_of_le hlower hupper⟩)
      ((explains_signed (by decide)).map _)
      (onlyMalformed_map (onlyMalformed_signed hc.stop) _) hc

/-- After the first byte of `00 80 80 80 80 78` stands the smallest signed integer of 32 bits, and
of 33 bits it is within the range too. -/
theorem signed_exact_smallest :
    ∃ c : Cursor, c.position = 1 ∧ c.Reads [0x00, 0x80, 0x80, 0x80, 0x80, 0x78] ∧
      Returns [0x00, 0x80, 0x80, 0x80, 0x80, 0x78] i32 c (-2147483648) 5 ∧
      Returns [0x00, 0x80, 0x80, 0x80, 0x80, 0x78] s33 c (-2147483648) 5 := by
  have hreads : Cursor.Reads [0x00, 0x80, 0x80, 0x80, 0x80, 0x78]
      ⟨[0x80, 0x80, 0x80, 0x80, 0x78], .endOfInput, 1, 6, 6, #[]⟩ :=
    ⟨rfl, by decide, rfl, rfl⟩
  have hexact := signed_exact hreads
  have hterminated : Terminated [0x00, 0x80, 0x80, 0x80, 0x80, 0x78] 1 5 :=
    ⟨by decide, by decide, by decide, by decide⟩
  refine ⟨_, rfl, hreads, (hexact.1.returns_iff _ _).2 ?_, (hexact.2.1.returns_iff _ _).2 ?_⟩
  · exact ⟨by decide, hterminated, by decide, by decide, by decide⟩
  · exact ⟨by decide, hterminated, by decide, by decide, by decide⟩

end Leb128
end WasmBinary
