import WasmBinary.Proofs.Comparison.Module
import WasmBinary.Proofs.Stream.Module

/-! Streams that fail. A failure ends the run with an error of the stream, or the run does not meet
it and goes as it would without it. -/
namespace WasmBinary

open Decoder Comparison

/-- The cursors stand at the same place. The stream of the second one delivers no more than that of
the first one and then fails. -/
structure Cursor.CutShort (reason : String) (c c' : Cursor) : Prop where
  pending : c'.pending <+: c.pending
  stop : c'.stop = .failure reason
  position : c'.position = c.position
  totalSize : c'.totalSize = c.totalSize
  bound : c'.bound = c.bound

/-- Runs on a stream and on one that fails earlier, until that one has failed. -/
def failure (reason : String) : Comparison where
  related := Cursor.CutShort reason
  shift := 0
  excusesFirst _ := False
  excusesSecond cause := cause = .io reason

namespace Failure

variable {reason : String} {c c' : Cursor}

theorem cutShort_passes {bs : List UInt8} {m m' : Cursor} (h : c.CutShort reason c')
    (hp : c.Passes bs m) (hp' : c'.Passes bs m') : m.CutShort reason m' where
  pending := by
    have hprefix := h.pending
    rw [hp.pending, hp'.pending] at hprefix
    exact (List.prefix_append_right_inj bs).1 hprefix
  stop := hp'.stop.trans h.stop
  position := by rw [hp.position, hp'.position, h.position]
  totalSize := by rw [hp.totalSize, hp'.totalSize, h.totalSize]
  bound := by rw [hp.bound, hp'.bound, h.bound]

theorem exists_pending {bs rest : List UInt8} (h : c.CutShort reason c')
    (hp : c'.pending = bs ++ rest) : ∃ rest', c.pending = bs ++ rest' := by
  obtain ⟨lost, hlost⟩ := h.pending
  exact ⟨rest ++ lost, by rw [← hlost, hp, List.append_assoc]⟩

theorem agree_byte : (failure reason).Agree Eq byte byte := by
  intro c c' h
  cases hp' : c'.pending with
  | nil =>
    have hfails : byte c' = .error ⟨.io reason, c'.position, none⟩ c' := by
      rw [byte, hp', h.stop]
      rfl
    rw [hfails]
    exact outcome_of_excusesSecond rfl _ _
  | cons b rest =>
    have hp₂ : c'.pending = [b] ++ rest := hp'
    obtain ⟨rest', hp₁⟩ := exists_pending h hp₂
    unfold byte
    rw [hp₁, hp₂]
    exact ⟨rfl, cutShort_passes h (Cursor.passes_of_pending hp₁) (Cursor.passes_of_pending hp₂)⟩

theorem agree_bytes (n : Nat) : (failure reason).Agree Eq (bytes n) (bytes n) := by
  intro c c' h
  rcases bytes_cases n c' with ⟨bs, rest, hp', rfl, hok⟩ | ⟨-, herror⟩
  · obtain ⟨rest', hp⟩ := exists_pending h hp'
    rw [hok, bytes_eq_ok hp]
    exact ⟨rfl, cutShort_passes h (Cursor.passes_of_pending hp) (Cursor.passes_of_pending hp')⟩
  · rw [herror, h.stop]
    exact outcome_of_excusesSecond rfl _ _

/-- A read is refused on both sides or on none: the sizes are the same. -/
theorem agree_read (n : Nat) : (failure reason).Agree Eq (read n) (read n) := by
  intro c c' h
  have hremaining : c'.remaining = c.remaining := by
    rw [Cursor.remaining, Cursor.remaining, h.totalSize, h.position]
  unfold Decoder.read
  rw [hremaining]
  split
  · exact .inl (by rw [h.position]; rfl)
  · exact agree_bytes n h

end Failure

def failing (reason : String) : Simulation where
  toComparison := failure reason
  position h := h.position
  log h _ _ := ⟨h.pending, h.stop, h.position, h.totalSize, h.bound⟩
  byte := Failure.agree_byte
  bytes := Failure.agree_bytes
  read := Failure.agree_read
  enter h bound := ⟨h.pending, h.stop, h.position, h.totalSize, by
    rw [h.totalSize]
    rfl⟩
  leave h h' := ⟨h'.pending, h'.stop, h'.position, h'.totalSize, h.bound⟩
  bound h := .inl (by rw [h.position, h.bound])
  truncatedFirst h := h.elim
  truncatedSecond h := by cases h

def Stream.failingAt (s : Stream) (f : Nat) (reason : String) : Stream :=
  { s with fault := some (f, .failure reason) }

section

variable {s : Stream} {f : Nat} {reason : String}

theorem Stream.supply_failingAt (h : f ≤ s.position + s.ahead.length) :
    (s.failingAt f reason).supply = (s.ahead.take (f - s.position), .failure reason) :=
  if_pos h

private theorem Stream.supply_failingAt_of_lt (h : s.position + s.ahead.length < f) :
    (s.failingAt f reason).supply = (s.ahead, .endOfInput) :=
  if_neg (Nat.not_le_of_lt h)

private theorem Stream.supply_failingAt_of_le (h : s.position + s.ahead.length ≤ f) :
    (s.failingAt f reason).supply.1 = s.ahead := by
  have hlength : s.ahead.length ≤ f - s.position := by omega
  by_cases hf : f ≤ s.position + s.ahead.length
  · rw [supply_failingAt hf]
    exact List.take_of_length_le hlength
  · rw [supply_failingAt_of_lt (Nat.lt_of_not_le hf)]

private theorem Cursor.atStart_failingAt (hs : s.fault = none)
    (h : s.position + s.ahead.length < f) : atStart (s.failingAt f reason) = atStart s := by
  rw [atStart, atStart, Stream.supply_failingAt_of_lt h, Stream.supply_of_fault_eq_none hs]
  rfl

theorem Cursor.cutShort_atStart (hs : s.fault = none) (h : f ≤ s.position + s.ahead.length) :
    (atStart s).CutShort reason (atStart (s.failingAt f reason)) where
  pending := by
    rw [atStart, atStart, Stream.supply_failingAt h, Stream.supply_of_fault_eq_none hs]
    exact List.take_prefix _ _
  stop := by rw [atStart, Stream.supply_failingAt h]
  position := rfl
  totalSize := rfl
  bound := rfl

end

namespace Module

theorem offset_le_of_isIo {c c' : Cursor} {e : DecodeError} (h : Module.decode c = .error e c')
    (he : e.cause.isIo = true) : e.offset ≤ c.position + c.pending.length := by
  obtain ⟨calls, r, hcalls⟩ := traced_module c
  have hr : r = .error e c' := hcalls.eq.symm.trans h
  rw [hr] at hcalls
  obtain ⟨rest, hpending, hposition, -⟩ := hcalls.path.pending_eq
  change c.pending = _ at hpending
  change c'.position = c.position + _ at hposition
  rw [hcalls.offset_of_isIo rfl he, hposition, hpending, List.length_append]
  omega

theorem answerOf_decode_of_cutShort {reason : String} {c c' : Cursor} (h : c.CutShort reason c') :
    answerOf (Module.decode c') = answerOf (Module.decode c) ∨
      ∃ e m', Module.decode c' = .error e m' ∧ e.cause = .io reason := by
  have hend : ∀ {c c' : Cursor}, c.CutShort reason c' → c.isAtEnd = c'.isAtEnd := by
    intro c c' h
    rw [Cursor.isAtEnd, Cursor.isAtEnd, h.totalSize, h.position]
  have houtcome := (failing reason).agree_module rfl hend h
  cases hd : Module.decode c with
  | ok m c₁ =>
    rw [hd] at houtcome
    cases hd' : Module.decode c' with
    | ok m' c₁' =>
      rw [hd'] at houtcome
      exact .inl (congrArg Except.ok houtcome.1.symm)
    | error e' c₁' =>
      rw [hd'] at houtcome
      exact .inr ⟨e', c₁', rfl, houtcome⟩
  | error e c₁ =>
    rw [hd] at houtcome
    cases hd' : Module.decode c' with
    | ok m' c₁' =>
      rw [hd'] at houtcome
      exact houtcome.elim
    | error e' c₁' =>
      rw [hd'] at houtcome
      rcases houtcome with hsame | hexcused | hexcused
      · exact .inl (congrArg Except.error hsame)
      · exact hexcused.elim
      · exact .inr ⟨e', c₁', rfl, hexcused⟩

/-- A stream that fails from some place on, whatever it says about its size: the failure is not met,
or it is what the run ends with, and it is reported at most as far on as the stream delivers. -/
theorem ofStream_failingAt_cases {s : Stream} (hs : s.fault = none) (hseek : s.failingSeek = none)
    (f : Nat) (reason : String) : (ofStream (s.failingAt f reason)).1 = (ofStream s).1 ∨
      ∃ e, (ofStream (s.failingAt f reason)).1 = .error e ∧ e.cause = .io reason ∧
        e.offset ≤ f - s.position := by
  have hseek' : (s.failingAt f reason).failingSeek = none := hseek
  rw [ofStream_of_cursor (Cursor.ofStream_of_failingSeek_eq_none hseek),
    ofStream_of_cursor (Cursor.ofStream_of_failingSeek_eq_none hseek')]
  by_cases h : f ≤ s.position + s.ahead.length
  · rcases answerOf_decode_of_cutShort (Cursor.cutShort_atStart hs h) with
      hsame | ⟨e, m', herror, hcause⟩
    · exact .inl hsame
    · have hlength : (Cursor.atStart (s.failingAt f reason)).pending.length ≤ f - s.position := by
        rw [Cursor.atStart, Stream.supply_failingAt h]
        exact List.length_take_le _ _
      have hoffset := offset_le_of_isIo herror (by rw [hcause]; rfl)
      change e.offset ≤ 0 + _ at hoffset
      rw [herror]
      exact .inr ⟨e, rfl, hcause, by omega⟩
  · exact .inl (by rw [Cursor.atStart_failingAt hs (Nat.lt_of_not_le h)])

section

variable {bs : List UInt8} {start f : Nat} {burst : Nat → Nat} {interruptions : List Nat}
  {reason : String}

/-- The run makes no read after the last byte of a module. -/
theorem ofStream_failingAt_of_length_le (hf : start ≤ f) (hlen : bs.length ≤ f) {m : Module}
    (h : ofBytes (bs.drop start) = .ok m) :
    (ofStream ((Stream.serving bs start burst interruptions).failingAt f reason)).1 = .ok m := by
  let s := Stream.serving bs start burst interruptions
  obtain ⟨hversion, rest, hbytes, hlayout⟩ := ofBytes_eq_ok_iff.1 h
  have hend : s.position + s.ahead.length ≤ f := by
    change start + (bs.drop start).length ≤ f
    rw [List.length_drop]
    omega
  have hpending : (Cursor.atStart (s.failingAt f reason)).pending = bs.drop start :=
    Stream.supply_failingAt_of_le hend
  have hhonest : (Cursor.atStart (s.failingAt f reason)).Honest := by
    change 0 + (Cursor.atStart (s.failingAt f reason)).pending.length = bs.length - start
    rw [hpending, List.length_drop, Nat.zero_add]
  obtain ⟨c', hd⟩ := decode_complete hhonest rfl (hpending.trans hbytes) hlayout
  rw [ofStream_of_cursor (Cursor.ofStream_of_failingSeek_eq_none rfl), hd, ← hversion]
  rfl

theorem ofStream_failingAt_ne_ok (hf : start ≤ f) (hlt : f < bs.length) (m : Module) :
    (ofStream ((Stream.serving bs start burst interruptions).failingAt f reason)).1 ≠ .ok m := by
  let s := Stream.serving bs start burst interruptions
  intro h
  obtain ⟨c, c', hc, hd⟩ := exists_decode_of_ofStream h
  have hstart : c = .atStart (s.failingAt f reason) := Cursor.eq_atStart hc
  have hfits : f ≤ s.position + s.ahead.length := by
    change f ≤ start + (bs.drop start).length
    rw [List.length_drop]
    omega
  have hdelivered : c.pending.length ≤ f - start := by
    rw [hstart, Cursor.atStart, Stream.supply_failingAt hfits]
    exact List.length_take_le _ _
  have hzero : c.position = 0 := by rw [hstart]; rfl
  have hsize : c.totalSize = bs.length - start := by rw [hstart]; rfl
  obtain ⟨-, hend, rest, hpasses, -⟩ := decode_sound hzero hd
  -- The run has come to the seeming end, and that lies behind the failure.
  have hreached : bs.length - start ≤ c'.position := by
    rw [← hsize, ← hpasses.totalSize]
    exact of_decide_eq_true hend
  have htaken := congrArg List.length hpasses.pending
  rw [List.length_append] at htaken
  have hposition := hpasses.position
  omega

end

/-- A stream over `bs` that keeps its word, once as it is and once with reads that fail from the place
`f` on. The failing run ends as the other one does, or with an error of the stream that is reported
no further on than the failure. If the other one succeeds, it depends on whether there are bytes
behind the failure. A failure is never taken for anything else, such as the end of the input. -/
theorem ofStream_failingAt {bs : List UInt8} {start f : Nat} {burst : Nat → Nat}
    {interruptions : List Nat} {reason : String} {r₀ r₁ : Except DecodeError Module}
    (hf : start ≤ f) (h₀ : (ofStream (.serving bs start burst interruptions)).1 = r₀)
    (h₁ : (ofStream ((Stream.serving bs start burst interruptions).failingAt f reason)).1 = r₁) :
    (r₁ = r₀ ∨ ∃ e, r₁ = .error e ∧ e.cause = .io reason ∧ e.offset ≤ f - start) ∧
    (∀ m, r₀ = .ok m → (bs.length ≤ f → r₁ = r₀) ∧
      (f < bs.length → ∃ e, r₁ = .error e ∧ e.cause = .io reason ∧ e.offset ≤ f - start)) ∧
    (∀ e, r₁ = .error e → e.cause.isIo = false → r₀ = .error e) := by
  have hcases : r₁ = r₀ ∨ ∃ e, r₁ = .error e ∧ e.cause = .io reason ∧ e.offset ≤ f - start := by
    rw [← h₀, ← h₁]
    exact ofStream_failingAt_cases rfl rfl f reason
  refine ⟨hcases, ?_, ?_⟩
  · intro m hm
    constructor
    · intro hlen
      rw [ofStream_serving_eq, hm] at h₀
      rw [← h₁, ofStream_failingAt_of_length_le hf hlen h₀, hm]
    · intro hlt
      rcases hcases with hsame | hio
      · rw [hsame, hm] at h₁
        exact absurd h₁ (ofStream_failingAt_ne_ok hf hlt m)
      · exact hio
  · intro e he hcause
    rcases hcases with hsame | ⟨e', he', hio, -⟩
    · rw [← hsame, he]
    · obtain rfl := Except.error.inj (he.symm.trans he')
      rw [hio] at hcause
      cases hcause

/-- A module after one other byte. The stream fails at the last byte of its type section. -/
theorem ofStream_failingAt_types :
    (ofStream (.serving [9, 0, 97, 115, 109, 1, 0, 0, 0, 1, 1, 0] 1 (fun _ => 3) [2, 2])).1 =
      .ok ⟨1, [⟨⟨.types, 1, 10⟩, .types []⟩]⟩ ∧
    (ofStream ((Stream.serving [9, 0, 97, 115, 109, 1, 0, 0, 0, 1, 1, 0] 1 (fun _ => 3)
      [2, 2]).failingAt 11 "device lost")).1 = .error ⟨.io "device lost", 10, some .types⟩ ∧
    ∃ e, (Except.error ⟨.io "device lost", 10, some .types⟩ : Except DecodeError Module) =
      .error e ∧ e.cause = .io "device lost" ∧ e.offset ≤ 11 - 1 := by
  have h₀ : (ofStream (.serving [9, 0, 97, 115, 109, 1, 0, 0, 0, 1, 1, 0] 1 (fun _ => 3)
      [2, 2])).1 = .ok ⟨1, [⟨⟨.types, 1, 10⟩, .types []⟩]⟩ := by decide +kernel
  have h₁ : (ofStream ((Stream.serving [9, 0, 97, 115, 109, 1, 0, 0, 0, 1, 1, 0] 1 (fun _ => 3)
      [2, 2]).failingAt 11 "device lost")).1 = .error ⟨.io "device lost", 10, some .types⟩ := by
    decide +kernel
  have hall := ofStream_failingAt (by decide) h₀ h₁
  exact ⟨h₀, h₁, (hall.2.1 _ rfl).2 (by decide)⟩

end Module
end WasmBinary
