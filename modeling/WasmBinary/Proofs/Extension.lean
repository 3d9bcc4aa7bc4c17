import WasmBinary.Proofs.Comparison.Module
import WasmBinary.Proofs.Diagnosis.Basic
import WasmBinary.Proofs.Format.Module

/-! More bytes after a malformed module: unless the error may come from their absence, it stays. -/
namespace WasmBinary

open Decoder Comparison

/-- The causes that more bytes may do away with: they all come up where the input ends. -/
def Cause.isShortage : Cause → Bool
  | .unexpectedEnd _ | .malformedInteger _ .truncated | .bodySizeMismatch _ _ => true
  | _ => false

/-- The cursors stand at the same place, one in the input `bs` and the other in a longer one. Only
the end of the shorter input sets their bounds apart. -/
structure Cursor.Extended (bs more : List UInt8) (c c' : Cursor) : Prop where
  shorter : c.Reads bs
  longer : c'.Reads (bs ++ more)
  position : c'.position = c.position
  bound : c.bound = min c'.bound bs.length

/-- Runs on an input and on a longer one, until the shorter one comes to its end. -/
def extension (bs more : List UInt8) : Comparison where
  related := Cursor.Extended bs more
  shift := 0
  excusesFirst cause := cause.isShortage = true
  excusesSecond _ := False

namespace Extension

variable {bs more : List UInt8} {c c' : Cursor}

theorem pending_eq (h : c.Extended bs more c') : c'.pending = c.pending ++ more := by
  rw [h.longer.pending, h.shorter.pending, h.position,
    List.drop_append_of_le_length h.shorter.position]

theorem extended_passes {ys : List UInt8} {m m' : Cursor} (h : c.Extended bs more c')
    (hp : c.Passes ys m) (hp' : c'.Passes ys m') : m.Extended bs more m' where
  shorter := h.shorter.passes hp
  longer := h.longer.passes hp'
  position := by rw [hp.position, hp'.position, h.position]
  bound := by rw [hp.bound, hp'.bound, h.bound]

theorem agree_byte : (extension bs more).Agree Eq byte byte := by
  intro c c' h
  have hpending := pending_eq h
  unfold byte
  cases hp : c.pending with
  | nil =>
    rw [h.shorter.stop]
    exact outcome_of_excusesFirst rfl _ _
  | cons b rest =>
    have hp₁ : c.pending = [b] ++ rest := hp
    have hp₂ : c'.pending = [b] ++ (rest ++ more) := by
      rw [hpending, hp₁, List.append_assoc]
    rw [hp₂]
    exact ⟨rfl, extended_passes h (Cursor.passes_of_pending hp₁) (Cursor.passes_of_pending hp₂)⟩

theorem agree_bytes (n : Nat) : (extension bs more).Agree Eq (bytes n) (bytes n) := by
  intro c c' h
  rcases bytes_cases n c with ⟨ys, rest, hp, rfl, hok⟩ | ⟨-, herror⟩
  · have hp' : c'.pending = ys ++ (rest ++ more) := by
      rw [pending_eq h, hp, List.append_assoc]
    rw [hok, bytes_eq_ok hp']
    exact ⟨rfl, extended_passes h (Cursor.passes_of_pending hp) (Cursor.passes_of_pending hp')⟩
  · rw [herror, h.shorter.stop]
    exact outcome_of_excusesFirst rfl _ _

theorem agree_read (n : Nat) : (extension bs more).Agree Eq (read n) (read n) := by
  intro c c' h
  unfold Decoder.read
  by_cases hn : c.remaining < n
  · rw [if_pos hn]
    exact outcome_of_excusesFirst rfl _ _
  · have hn' : ¬ c'.remaining < n := by
      have hlen := h.longer.totalSize
      rw [List.length_append] at hlen
      rw [Cursor.remaining, h.shorter.totalSize] at hn
      rw [Cursor.remaining, hlen, h.position]
      omega
    rw [if_neg hn, if_neg hn']
    exact agree_bytes n h

private theorem extended_enter (h : c.Extended bs more c') (bound : Nat) :
    Cursor.Extended bs more { c with bound := min bound c.totalSize }
      { c' with bound := min bound c'.totalSize } where
  shorter := h.shorter.update _ _
  longer := h.longer.update _ _
  position := h.position
  bound := by
    have hlen := h.longer.totalSize
    rw [List.length_append] at hlen
    dsimp only
    rw [h.shorter.totalSize, hlen]
    omega

end Extension

/-- On a longer input all decoders do the same, until the shorter one comes to its end. -/
def extending (bs more : List UInt8) : Simulation where
  toComparison := extension bs more
  position h := h.position
  log h _ _ := ⟨h.shorter.update _ _, h.longer.update _ _, h.position, h.bound⟩
  byte := Extension.agree_byte
  bytes := Extension.agree_bytes
  read := Extension.agree_read
  enter := Extension.extended_enter
  leave h h' := ⟨h'.shorter.update _ _, h'.longer.update _ _, h'.position, h.bound⟩
  bound {c c'} h := by
    have hpos := h.position
    have hbound := h.bound
    by_cases hlt : c.position < c.bound
    · exact .inl ⟨fun _ => by omega, fun _ => hlt⟩
    -- Past its bound the shorter run takes no more instructions; a body cut off there is excused.
    · exact .inr ⟨by omega, fun _ _ => rfl⟩
  truncatedFirst _ _ := rfl
  truncatedSecond h := h.elim

namespace Module

variable {bs : List UInt8} {e : DecodeError}

theorem extended_ofBytes (bs more : List UInt8) :
    (Cursor.ofBytes bs).Extended bs more (.ofBytes (bs ++ more)) where
  shorter := Cursor.reads_ofBytes bs
  longer := Cursor.reads_ofBytes (bs ++ more)
  position := rfl
  bound := by
    change bs.length = min (bs ++ more).length bs.length
    rw [List.length_append]
    omega

theorem agree_decodeHeader (bs more : List UInt8) :
    (extending bs more).Agree Eq decodeHeader decodeHeader :=
  (extending bs more).agree_header rfl

private theorem not_isAtEnd_of_extended {bs more : List UInt8} {c c' : Cursor}
    (h : c.Extended bs more c') (hc : (!c.isAtEnd) = true) : (!c'.isAtEnd) = true := by
  have hlen := h.longer.totalSize
  rw [List.length_append] at hlen
  rw [Cursor.isAtEnd, h.shorter.totalSize] at hc
  rw [Cursor.isAtEnd, hlen, h.position]
  simp only [Bool.not_eq_true', decide_eq_false_iff_not] at hc ⊢
  omega

/-- What is malformed stays malformed: unless the error may come from an input that is too short, it
is the same, with all its values, whatever bytes follow. -/
theorem ofBytes_append_of_malformed (h : ofBytes bs = .error e) (he : e.cause.isShortage = false)
    (r : List UInt8) : ofBytes (bs ++ r) = .error e := by
  have hfirst : ¬ (extending bs r).excusesFirst e.cause := by
    change ¬ e.cause.isShortage = true
    simp [he]
  have hsecond : ∀ cause, ¬ (extending bs r).excusesSecond cause := fun _ => id
  have hheader := agree_decodeHeader bs r (extended_ofBytes bs r)
  obtain ⟨c, hd⟩ := ofBytes_eq_error_iff.1 h
  rw [ofBytes_eq_error_iff, Module.decode, bind_apply]
  rcases bind_error hd with hlast | ⟨version, c₁, hversion, hsections⟩
  · rw [hlast] at hheader
    obtain ⟨c', hc'⟩ := hheader.exists_error hfirst hsecond
    exact ⟨c', by rw [hc']; rfl⟩
  · rw [hversion] at hheader
    obtain ⟨_, c₁', hc₁', rfl, hc₁⟩ := hheader.exists_ok hsecond
    rw [hc₁']
    dsimp only
    rw [bind_apply]
    -- The longer run may go on where the shorter one is at its end: the loops agree in errors only.
    rcases bind_error hsections with hlast | ⟨es, c₂, -, hend⟩
    · obtain ⟨c', hc'⟩ := (extending bs r).collectWhile_error SectionEntry.advances_decode
        (extending bs r).agree_entry not_isAtEnd_of_extended hsecond hc₁ hlast hfirst
      exact ⟨c', by rw [hc']; rfl⟩
    · cases hend

/-- A type section that says two bytes more than there are, with a wrong byte among those there
are. -/
theorem ofBytes_append_of_malformed_types :
    ofBytes [0, 97, 115, 109, 1, 0, 0, 0, 1, 4, 1, 0x61] =
      .error ⟨.invalidTypeMarker 0x61, 11, some .types⟩ ∧
    ofBytes ([0, 97, 115, 109, 1, 0, 0, 0, 1, 4, 1, 0x61] ++ [0, 0, 10, 1, 0]) =
      .error ⟨.invalidTypeMarker 0x61, 11, some .types⟩ := by
  have herror : ofBytes [0, 97, 115, 109, 1, 0, 0, 0, 1, 4, 1, 0x61] =
      .error ⟨.invalidTypeMarker 0x61, 11, some .types⟩ := by decide +kernel
  exact ⟨herror, ofBytes_append_of_malformed herror rfl _⟩

end Module
end WasmBinary
