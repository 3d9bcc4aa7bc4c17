import WasmBinary.Proofs.Diagnosis.Basic
import WasmBinary.Proofs.Utf8.Fault

/-! Names, which are read back as they were written, and refused for what is wrong with them. -/
namespace WasmBinary.Decoder

open Leb128

variable {c m : Cursor} {field x rest : List UInt8} {n : Nat}

private theorem name_of_byteVector_error {e : DecodeError} (h : byteVector c = .error e m) :
    name c = .error e m := by
  unfold name
  rw [bind_apply, position]
  dsimp only
  rw [bind_apply, h]

theorem name_of_fault {fault : Utf8.Fault} (h : byteVector c = .ok x m)
    (hfault : Utf8.decode x = .error fault) :
    name c = .error ⟨.invalidName x fault, c.position, none⟩ m := by
  unfold name
  rw [bind_apply, position]
  dsimp only
  rw [bind_apply, h]
  dsimp only
  rw [hfault]
  rfl

private theorem read_of_short (hc : c.Honest) (hshort : c.pending.length < n) :
    read n c = .error ⟨.unexpectedEnd n, c.position, none⟩ c := by
  have hremaining : c.remaining < n := by
    unfold Cursor.Honest at hc
    unfold Cursor.remaining
    omega
  unfold read
  rw [if_pos hremaining]
  rfl

private theorem byteVector_of_short (hc : c.Honest) (hfield : Unsigned 32 field n)
    (hpending : c.pending = field ++ rest) (hshort : rest.length < n) :
    ∃ m, c.Passes field m ∧
      byteVector c = .error ⟨.unexpectedEnd n, c.position + field.length, none⟩ m := by
  obtain ⟨w, hw, rfl⟩ := hfield.exists_u32
  obtain ⟨m, hm, hpass⟩ := (follows_u32.complete hw).succeeds hc hpending
  have hrest : m.pending.length < w.toNat := by
    rw [hpass.pending_eq hpending]
    exact hshort
  refine ⟨m, hpass, ?_⟩
  unfold byteVector
  rw [bind_apply, hm]
  dsimp only
  rw [read_of_short (hpass.honest hc) hrest, hpass.position]

/-- How names are read from a cursor on. The length is any encoding of a number of 32 bits. -/
structure ReadsNames (c : Cursor) : Prop where
  returns : ∀ s field rest, Unsigned 32 field (Utf8.encoding s).length →
    c.pending = field ++ (Utf8.encoding s ++ rest) →
      ∃ c', name c = .ok s c' ∧ c.Passes (field ++ Utf8.encoding s) c'
  returns_only : ∀ s c', name c = .ok s c' →
    ∃ field, Unsigned 32 field (Utf8.encoding s).length ∧ c.Passes (field ++ Utf8.encoding s) c'
  /-- The error has all bytes of the name and the place of its length. -/
  refuses : ∀ x field rest, Unsigned 32 field x.length → c.pending = field ++ (x ++ rest) →
    ¬ Utf8.WellFormed x → ∃ fault c', name c = .error ⟨.invalidName x fault, c.position, none⟩ c' ∧
      fault.Describes x ∧ c.Passes (field ++ x) c'
  /-- The error has the place after the length, where the cursor stays. -/
  refuses_short : ∀ n field rest, Unsigned 32 field n → c.pending = field ++ rest →
    rest.length < n → ∃ c', name c = .error ⟨.unexpectedEnd n, c.position + field.length, none⟩ c' ∧
      c.Passes field c'

/-- Wherever a name begins, it is read back or refused precisely. -/
theorem name_exact (hc : c.Honest) : ReadsNames c where
  returns s field rest hfield hpending := by
    have hname : Format.Name (field ++ Utf8.encoding s) s := .intro hfield
    rw [← List.append_assoc] at hpending
    exact (follows_name.complete hname).succeeds hc hpending
  returns_only s c' h := by
    obtain ⟨bs, hpass, hname⟩ := (follows_name (E := never)).sound h
    cases hname with
    | @intro field _ hfield => exact ⟨field, hfield, hpass⟩
  refuses x field rest hfield hpending hx := by
    have hvector : Format.ByteVector (field ++ x) x := .intro hfield
    rw [← List.append_assoc] at hpending
    obtain ⟨m, hm, hpass⟩ := (follows_byteVector.complete hvector).succeeds hc hpending
    cases hdecode : Utf8.decode x with
    | ok s => exact absurd (Utf8.wellFormed_iff.2 ⟨s, Utf8.decode_eq_ok_iff.1 hdecode⟩) hx
    | error fault =>
      exact ⟨fault, m, name_of_fault hm hdecode, Utf8.describes_of_decode hdecode, hpass⟩
  refuses_short n field rest hfield hpending hshort := by
    obtain ⟨m, hpass, herror⟩ := byteVector_of_short hc hfield hpending hshort
    exact ⟨m, name_of_byteVector_error herror, hpass⟩

/-- After the first byte of `00 05 41 F0 9F 98 28 0B` stands a name of five bytes: one character,
three bytes of another one, and a byte that does not go on with it. -/
theorem name_exact_broken : ∃ c c' : Cursor, c.position = 1 ∧ c.Honest ∧
    name c = .error ⟨.invalidName [0x41, 0xF0, 0x9F, 0x98, 0x28] ⟨1, some 3⟩, 1, none⟩ c' ∧
      Utf8.Fault.Describes ⟨1, some 3⟩ [0x41, 0xF0, 0x9F, 0x98, 0x28] ∧ c'.pending = [0x0B] := by
  have hhonest : Cursor.Honest
      ⟨[0x05, 0x41, 0xF0, 0x9F, 0x98, 0x28, 0x0B], .endOfInput, 1, 8, 8, #[]⟩ := by
    rfl
  have hfield : Unsigned 32 [0x05] 5 :=
    ⟨(by decide : (0x05 : UInt8).toNat < 128), by decide, rfl, by decide⟩
  have hdecode : Utf8.decode [0x41, 0xF0, 0x9F, 0x98, 0x28] = .error ⟨1, some 3⟩ := by rfl
  have hx : ¬ Utf8.WellFormed [0x41, 0xF0, 0x9F, 0x98, 0x28] := by
    intro hwell
    obtain ⟨s, hs⟩ := Utf8.wellFormed_iff.1 hwell
    rw [Utf8.decode_eq_ok_iff.2 hs] at hdecode
    cases hdecode
  obtain ⟨fault, c', hname, hdescribes, hpass⟩ :=
    (name_exact hhonest).refuses [0x41, 0xF0, 0x9F, 0x98, 0x28] [0x05] [0x0B] hfield rfl hx
  have hfault : fault = ⟨1, some 3⟩ := by
    have hanswer : name ⟨[0x05, 0x41, 0xF0, 0x9F, 0x98, 0x28, 0x0B], .endOfInput, 1, 8, 8, #[]⟩ =
        .error ⟨.invalidName [0x41, 0xF0, 0x9F, 0x98, 0x28] ⟨1, some 3⟩, 1, none⟩
          ⟨[0x0B], .endOfInput, 7, 8, 8, #[]⟩ := by
      rfl
    rw [hanswer] at hname
    cases hname
    rfl
  subst hfault
  exact ⟨_, c', rfl, hhonest, hname, hdescribes, hpass.pending_eq rfl⟩

end WasmBinary.Decoder
