import WasmBinary.Proofs.Format.Module
import WasmBinary.Proofs.Stream.Answers
import WasmBinary.Proofs.Trace.Decoder

/-! Modules in streams. From a stream that keeps its word decoding gives what the bytes after the
position give, however they come. From a stream that does not, it still accepts nothing but the
bytes of a module. -/
namespace WasmBinary

open Decoder

def Cursor.atStart (s : Stream) : Cursor :=
  ⟨s.supply.1, s.supply.2, 0, s.size, s.size, #[]⟩

theorem Cursor.ofStream_eq (s : Stream) : ofStream s =
    if s.failingSeek.any fun n => 1 ≤ n && n ≤ openingSeeks then
      .error ⟨.io "seek failed", 0, none⟩
    else .ok (atStart s) := by
  rw [ofStream, Stream.contents_eq_supply]
  rfl

theorem Cursor.ofStream_of_failingSeek_eq_none {s : Stream} (h : s.failingSeek = none) :
    ofStream s = .ok (atStart s) := by
  rw [ofStream_eq, h]
  rfl

theorem Cursor.eq_atStart {s : Stream} {c : Cursor} (h : ofStream s = .ok c) : c = atStart s := by
  rw [ofStream_eq] at h
  split at h
  · cases h
  · exact (Except.ok.inj h).symm

theorem Cursor.over_atStart (s : Stream) : (atStart s).place.Over s :=
  rfl

theorem Stream.supply_prefix (s : Stream) : s.supply.1 <+: s.ahead := by
  unfold supply
  split
  · exact List.prefix_rfl
  · split
    · exact List.take_prefix _ _
    · exact List.prefix_rfl

/-- A stream over `bs` that keeps its word, in bursts of any size and with any interruptions. -/
def Stream.serving (bs : List UInt8) (start : Nat) (burst : Nat → Nat) (interruptions : List Nat) :
    Stream :=
  { Stream.ofBytes bs start with burst := burst, interruptions := interruptions }

theorem Cursor.ofStream_serving (bs : List UInt8) (start : Nat) (burst : Nat → Nat)
    (interruptions : List Nat) :
    ofStream (.serving bs start burst interruptions) = .ok (ofBytes (bs.drop start)) := by
  have hsize : (Stream.serving bs start burst interruptions).size = (bs.drop start).length :=
    List.length_drop.symm
  rw [ofStream_of_failingSeek_eq_none rfl, atStart, hsize]
  rfl

namespace Module

theorem ofStream_of_cursor {s : Stream} {c : Cursor} (hc : Cursor.ofStream s = .ok c) :
    ofStream s = (answerOf (Module.decode c), (cursorOf (Module.decode c)).log.toList) := by
  rw [ofStream, runOn, hc]
  dsimp only
  cases Module.decode c <;> rfl

theorem exists_answers {s : Stream} {c : Cursor} (hc : Cursor.ofStream s = .ok c)
    {calls : List Call} {r : EStateM.Result DecodeError Cursor Module}
    (h : Module.decode.Makes c calls r) : ∃ t, s.Answers calls t := by
  rw [Cursor.eq_atStart hc] at h
  exact h.path.answers (Cursor.over_atStart s)

theorem exists_makes (c : Cursor) : ∃ calls, Module.decode.Makes c calls (Module.decode c) := by
  obtain ⟨calls, r, h⟩ := traced_module c
  exact ⟨calls, h.eq ▸ h⟩

theorem ofStream_serving_eq (bs : List UInt8) (start : Nat) (burst : Nat → Nat)
    (interruptions : List Nat) : ofStream (.serving bs start burst interruptions) =
      ofStream (.ofBytes (bs.drop start) 0) := by
  rw [ofStream_of_cursor (Cursor.ofStream_serving bs start burst interruptions),
    ofStream_of_cursor (Cursor.ofStream_ofBytes _)]

/-- From a stream over `bs` that keeps its word, in whatever bursts and with whatever interruptions,
decoding gives what the bytes after the position give: the result and the events are the same. Each
read of the run, by any account of it, gets what repeated calls of the stream bring. -/
theorem ofStream_eq_ofBytes_drop (bs : List UInt8) (start : Nat) (burst : Nat → Nat)
    (interruptions : List Nat) :
    (ofStream (.serving bs start burst interruptions)).1 = ofBytes (bs.drop start) ∧
    (ofStream (.serving bs start burst interruptions)).2 =
      (ofStream (.ofBytes (bs.drop start) 0)).2 ∧
    ∃ c, Cursor.ofStream (.serving bs start burst interruptions) = .ok c ∧
      (∃ calls, Module.decode.Makes c calls (Module.decode c)) ∧
      ∀ calls r, Module.decode.Makes c calls r →
        ∃ t, (Stream.serving bs start burst interruptions).Answers calls t := by
  have hc := Cursor.ofStream_serving bs start burst interruptions
  have heq := ofStream_serving_eq bs start burst interruptions
  refine ⟨congrArg Prod.fst heq, congrArg Prod.snd heq, _, hc, exists_makes _, ?_⟩
  intro calls r h
  exact exists_answers hc h

theorem exists_decode_of_ofStream {s : Stream} {m : Module} (h : (ofStream s).1 = .ok m) :
    ∃ c c', Cursor.ofStream s = .ok c ∧ Module.decode c = .ok m c' := by
  cases hc : Cursor.ofStream s with
  | error e =>
    rw [ofStream, runOn, hc] at h
    cases h
  | ok c =>
    rw [ofStream_of_cursor hc] at h
    cases hd : Module.decode c with
    | ok m' c' =>
      rw [hd] at h
      obtain rfl := Except.ok.inj h
      exact ⟨c, c', rfl, hd⟩
    | error e c' =>
      rw [hd] at h
      cases h

/-- A stream may say anything about its size, begin anywhere and fail anywhere: if a module is
decoded from it, and the run ends at the position `k`, then the stream has delivered the first `k`
bytes ahead of it, and by themselves they are this module. -/
theorem ofBytes_take_of_ofStream {s : Stream} {m : Module} (h : (ofStream s).1 = .ok m) :
    ∃ c c', Cursor.ofStream s = .ok c ∧ Module.decode c = .ok m c' ∧
      c'.position ≤ s.ahead.length ∧ ofBytes (s.ahead.take c'.position) = .ok m ∧
      (∃ calls, Module.decode.Makes c calls (.ok m c')) ∧
      ∀ calls, Module.decode.Makes c calls (.ok m c') →
        (∃ t, s.Answers calls t) ∧ calls.flatMap Call.bytes = s.ahead.take c'.position := by
  obtain ⟨c, c', hc, hd⟩ := exists_decode_of_ofStream h
  have hstart := Cursor.eq_atStart hc
  have hzero : c.position = 0 := by rw [hstart]; rfl
  obtain ⟨more, hmore⟩ := s.supply_prefix
  have hpending : c.pending = s.supply.1 := by rw [hstart]; rfl
  obtain ⟨hversion, -, rest, hpasses, hlayout⟩ := decode_sound hzero hd
  have hmodule : s.ahead.take c'.position = header ++ rest := by
    rw [hpasses.position, hzero, Nat.zero_add, ← hmore, ← hpending, hpasses.pending,
      List.append_assoc, List.take_left]
  have hle : c'.position ≤ s.ahead.length := by
    have hlength := congrArg List.length hmore
    have hsupply := congrArg List.length (hpending.symm.trans hpasses.pending)
    have hposition := hpasses.position
    rw [List.length_append] at hlength hsupply
    omega
  have hmakes : ∃ calls, Module.decode.Makes c calls (.ok m c') := hd ▸ exists_makes c
  refine ⟨c, c', hc, hd, hle, ofBytes_eq_ok_iff.2 ⟨hversion, rest, hmodule, hlayout⟩, hmakes, ?_⟩
  intro calls hcalls
  refine ⟨exists_answers hc hcalls, ?_⟩
  obtain ⟨left, hbytes, hposition, -⟩ := hcalls.path.pending_eq
  change c.pending = _ at hbytes
  change c'.position = c.position + _ at hposition
  rw [hposition, hzero, Nat.zero_add, ← hmore, ← hpending, hbytes, List.append_assoc,
    List.take_left]

/-- A stream that claims nine bytes. From its position on there are the fourteen of a module and two
more, of which it delivers none. -/
def understated : Stream where
  ahead := [0, 97, 115, 109, 1, 0, 0, 0, 1, 4, 1, 0x60, 0, 0, 7, 7]
  position := 3
  claimedEnd := 12
  fault := some (17, .failure "device lost")
  interruptions := [5]
  burst _ := 2

/-- The run passes the claimed end inside the type section and stops where that ends. -/
theorem ofBytes_take_of_ofStream_understated :
    understated.size = 9 ∧
    (ofStream understated).1 = .ok ⟨1, [⟨⟨.types, 4, 10⟩, .types [⟨[], []⟩]⟩]⟩ ∧
    ∃ c c', Cursor.ofStream understated = .ok c ∧
      Module.decode c = .ok ⟨1, [⟨⟨.types, 4, 10⟩, .types [⟨[], []⟩]⟩]⟩ c' ∧ c'.position = 14 ∧
      ofBytes (understated.ahead.take c'.position) =
        .ok ⟨1, [⟨⟨.types, 4, 10⟩, .types [⟨[], []⟩]⟩]⟩ := by
  have hok : (ofStream understated).1 = .ok ⟨1, [⟨⟨.types, 4, 10⟩, .types [⟨[], []⟩]⟩]⟩ := by
    decide +kernel
  have hend : (cursorOf (Module.decode (.atStart understated))).position = 14 := by decide +kernel
  obtain ⟨c, c', hc, hd, -, hbytes, -⟩ := ofBytes_take_of_ofStream hok
  rw [← Cursor.eq_atStart hc, hd] at hend
  exact ⟨rfl, hok, c, c', hc, hd, hend, hbytes⟩

end Module
end WasmBinary
