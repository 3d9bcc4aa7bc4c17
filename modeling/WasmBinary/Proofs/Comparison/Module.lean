import WasmBinary.Module.Decoder
import WasmBinary.Proofs.Comparison.Decoder

/-! Simulations between cursors at the same place carry over to whole modules. -/
namespace WasmBinary

open Decoder Comparison

theorem DecodeError.moved_zero (e : DecodeError) : e.moved 0 = e :=
  rfl

theorem SectionEntry.moved_zero (e : SectionEntry) : e.moved 0 = e :=
  rfl

namespace Simulation

variable (S : Simulation)

/-- The errors of the header name fixed offsets, so there can be no shift. -/
theorem agree_header (hshift : S.shift = 0) :
    S.Agree Eq Module.decodeHeader Module.decodeHeader := by
  have hfail : ∀ (offset : Nat) (cause : Cause) (k : Unit → Decoder UInt32),
      S.Agree Eq (failAt offset cause >>= k) (failAt offset cause >>= k) := by
    intro offset cause k c c' h
    have hmoved := DecodeError.moved_zero ⟨cause, offset, none⟩
    rw [← hshift] at hmoved
    exact .inl hmoved.symm
  refine (S.bytes 4).bind_eq fun found => ?_
  split
  · exact hfail 0 _ _
  · refine (S.bytes 4).bind_eq fun found' => ?_
    split
    · exact hfail 4 _ _
    · exact agree_pure rfl

theorem agree_module (hshift : S.shift = 0)
    (hend : ∀ {c c'}, S.related c c' → c.isAtEnd = c'.isAtEnd) :
    S.Agree Eq Module.decode Module.decode := by
  refine (S.agree_header hshift).bind_eq fun version => ?_
  have hmore : ∀ {c c'}, S.related c c' → (!c.isAtEnd) = (!c'.isAtEnd) := by
    intro c c' h
    rw [hend h]
  refine (S.agree_collectWhile SectionEntry.advances_decode S.agree_entry hmore).bind
    fun entries entries' hentries => ?_
  have hsame : entries' = entries := by
    rw [hentries, hshift, funext SectionEntry.moved_zero, List.map_id']
  rw [hsame]
  refine S.agree_position_bind fun here => ?_
  exact (S.agree_report _ _).bind_eq fun _ => agree_pure rfl

end Simulation
end WasmBinary
