import WasmBinary.Proofs.Diagnosis.Decoder
import WasmBinary.Proofs.Tiling
import WasmBinary.Proofs.Trace.Basic

/-! What is reported about the items of a section: one event for each body of a code section and for
each segment of a data section, also if a later item fails. Everything else is silent. -/
namespace WasmBinary

open Decoder Leb128

namespace Decoder

variable {α : Type} {c c' : Cursor}

/-- Whether the decoder fails or not, the log stays as it is. -/
def SilentAt (d : Decoder α) (c : Cursor) : Prop :=
  (cursorOf (d c)).log = c.log

theorem SilentAt.of_ok {d : Decoder α} (hd : SilentAt d c) {a : α} (h : d c = .ok a c') :
    c'.log = c.log := by
  rw [SilentAt, h] at hd
  exact hd

theorem SilentAt.of_error {d : Decoder α} (hd : SilentAt d c) {e : DecodeError}
    (h : d c = .error e c') : c'.log = c.log := by
  rw [SilentAt, h] at hd
  exact hd

private theorem silentAt_bytes (n : Nat) (c : Cursor) : SilentAt (bytes n) c := by
  unfold SilentAt
  rcases bytes_cases n c with ⟨ys, rest, -, -, hok⟩ | ⟨-, herror⟩
  · rw [hok]
    rfl
  · rw [herror]
    rfl

private theorem silentAt_byte (c : Cursor) : SilentAt byte c := by
  unfold SilentAt byte
  split <;> rfl

theorem silence : Compositional SilentAt where
  pure _ _ := rfl
  position _ := rfl
  fail _ _ := rfl
  failAt _ _ _ _ := rfl
  byte := silentAt_byte
  bytes := silentAt_bytes
  read n c := by
    unfold SilentAt Decoder.read
    split
    · rfl
    · exact silentAt_bytes n c
  next width start c := by
    have hbyte := silentAt_byte c
    unfold SilentAt at hbyte ⊢
    rw [next_apply]
    cases h : byte c with
    | ok b m =>
      rw [h] at hbyte
      exact hbyte
    | error e m =>
      rw [h] at hbyte
      exact hbyte
  bindAt {_ _ d f c} first rest := by
    unfold SilentAt
    rw [bind_apply]
    cases h : d c with
    | ok a m => exact Eq.trans (rest a m h) (first.of_ok h)
    | error e m => exact first.of_error h
  done stop := by
    rw [SilentAt, collectWhile_eq, if_neg (by simp [stop])]
    rfl
  again go step := by
    rw [SilentAt, collectWhile_eq, if_pos go]
    exact step

theorem steps_of_timesFrom {d : Nat → Decoder α} {index count : Nat} {as : List α}
    (h : timesFrom d index count [] c = .ok as c') :
    as.length = count ∧ NumberedSteps d index c as c' := by
  induction count generalizing index c as with
  | zero =>
    obtain ⟨rfl, rfl⟩ := EStateM.Result.ok.inj h
    exact ⟨rfl, .nil index c⟩
  | succ count ih =>
    rw [timesFrom_succ] at h
    obtain ⟨a, m, ha, h⟩ := bind_ok h
    obtain ⟨as', has, rfl⟩ := map_ok h
    obtain ⟨hlen, hsteps⟩ := ih has
    exact ⟨congrArg (· + 1) hlen, .cons ha hsteps⟩

theorem steps_of_timesFrom_error {d : Nat → Decoder α} {index count : Nat} {e : DecodeError}
    (h : timesFrom d index count [] c = .error e c') : ∃ as m, NumberedSteps d index c as m ∧
      as.length < count ∧ d (index + as.length) m = .error e c' := by
  induction count generalizing index c with
  | zero => cases h
  | succ count ih =>
    rw [timesFrom_succ] at h
    rcases bind_error h with h | ⟨a, m, ha, h⟩
    · exact ⟨[], c, .nil index c, Nat.succ_pos count, h⟩
    · obtain ⟨as, m', hsteps, hlen, herror⟩ := ih (map_error.1 h)
      have hnumber : index + 1 + as.length = index + (a :: as).length := by
        rw [List.length_cons]
        omega
      exact ⟨a :: as, m', .cons ha hsteps, Nat.succ_lt_succ hlen, hnumber ▸ herror⟩

end Decoder

/-- The place after the integer that begins at the place `p`. -/
def Leb128.fieldEnd (bs : List UInt8) (p : Nat) : Nat :=
  p + ((bs.drop p).takeWhile fun b => 128 ≤ b.toNat).length + 1

private theorem Leb128.Delimited.length_takeWhile {xs ys : List UInt8} (h : Delimited xs) :
    ((xs ++ ys).takeWhile fun b => 128 ≤ b.toNat).length + 1 = xs.length := by
  induction xs with
  | nil => exact h.elim
  | cons b xs ih =>
    cases xs with
    | nil =>
      have hb : ¬ 128 ≤ b.toNat := Nat.not_le.2 h
      simp [hb]
    | cons b' xs =>
      have hb : 128 ≤ b.toNat := h.1
      have htail := ih h.2
      simp only [List.cons_append] at htail ⊢
      rw [List.takeWhile_cons_of_pos (by simpa using hb), List.length_cons, htail]
      rfl

theorem Leb128.fieldEnd_eq {bs field rest : List UInt8} {p : Nat} (h : bs.drop p = field ++ rest)
    (hfield : Delimited field) : fieldEnd bs p = p + field.length := by
  rw [fieldEnd, h, Nat.add_assoc, hfield.length_takeWhile]

theorem Cursor.Passes.fieldEnd_eq {bs field : List UInt8} {c m : Cursor} (hc : c.Reads bs)
    (hp : c.Passes field m) (hfield : Delimited field) : fieldEnd bs c.position = m.position := by
  have hdrop : bs.drop c.position = field ++ m.pending := hc.pending.symm.trans hp.pending
  rw [Leb128.fieldEnd_eq hdrop hfield, hp.position]

/-! ### Bodies and segments -/

/-- The events of bodies that stand one after the other from the place `p` on, numbered from `index`
on. The offset of a body is that of its first byte after the size. -/
def Body.eventsFrom (bs : List UInt8) : (index p : Nat) → List Body → List Event
  | _, _, [] => []
  | index, p, body :: bodies =>
    .body index (fieldEnd bs p) body ::
      eventsFrom bs (index + 1) (fieldEnd bs p + body.size.toNat) bodies

theorem Body.decodeEntry_eq_ok {bs : List UInt8} {index : Nat} {body : Body} {c c' : Cursor}
    (hc : c.Reads bs) (h : Body.decodeEntry index c = .ok body c') :
    c'.Reads bs ∧ c'.position = fieldEnd bs c.position + body.size.toNat ∧
      c'.log = c.log.push (.body index (fieldEnd bs c.position) body) := by
  obtain ⟨size, m, hsize, h⟩ := bind_ok h
  obtain ⟨_, _, hoffset, h⟩ := bind_ok h
  obtain ⟨rfl, rfl⟩ := EStateM.Result.ok.inj hoffset
  obtain ⟨found, m', hbody, h⟩ := bind_ok h
  obtain ⟨_, _, hreport, h⟩ := bind_ok h
  obtain ⟨-, rfl⟩ := EStateM.Result.ok.inj hreport
  obtain ⟨rfl, rfl⟩ := EStateM.Result.ok.inj h
  obtain ⟨field, hpf, hfield⟩ := (follows_u32 (E := never)).sound hsize
  obtain ⟨content, hpc, rfl, hholds⟩ :=
    (Body.follows_decode (E := fun _ => True) (fun _ _ => trivial) size).sound hbody
  have hlen : content.length = found.size.toNat := by
    cases hholds with
    | intro _ _ size => exact size
  have hend := hpf.fieldEnd_eq hc hfield.delimited
  have hlog : m'.log = c.log :=
    ((silence.body _ m).of_ok hbody).trans ((silence.u32 c).of_ok hsize)
  refine ⟨((hc.passes hpf).passes hpc).update _ _, ?_, ?_⟩
  · rw [hend, ← hlen]
    exact hpc.position
  · rw [hend, ← hlog]

theorem Body.log_of_decodeEntry_error {index : Nat} {e : DecodeError} {c c' : Cursor}
    (h : Body.decodeEntry index c = .error e c') : c'.log = c.log := by
  rcases bind_error h with h | ⟨size, m, hsize, h⟩
  · exact (silence.u32 c).of_error h
  · rcases bind_error h with h | ⟨_, _, hoffset, h⟩
    · cases h
    · obtain ⟨-, rfl⟩ := EStateM.Result.ok.inj hoffset
      rcases bind_error h with h | ⟨_, _, -, h⟩
      · exact ((silence.body size m).of_error h).trans ((silence.u32 c).of_ok hsize)
      · cases h

theorem DataSegment.log_of_decode {s : DataSegment} {c c' : Cursor}
    (h : DataSegment.decode c = .ok s c') : c'.log = c.log.push (.segment s) := by
  obtain ⟨memory, m₁, hmemory, h⟩ := bind_ok h
  obtain ⟨offset, m₂, hoffset, h⟩ := bind_ok h
  obtain ⟨init, m₃, hinit, h⟩ := bind_ok h
  obtain ⟨_, _, hreport, h⟩ := bind_ok h
  obtain ⟨-, rfl⟩ := EStateM.Result.ok.inj hreport
  obtain ⟨rfl, rfl⟩ := EStateM.Result.ok.inj h
  have hlog : m₃.log = c.log := calc
    m₃.log = m₂.log := (silence.byteVector m₂).of_ok hinit
    _ = m₁.log := (silence.expr m₁).of_ok hoffset
    _ = c.log := (silence.index c).of_ok hmemory
  rw [← hlog]

theorem DataSegment.log_of_decode_error {e : DecodeError} {c c' : Cursor}
    (h : DataSegment.decode c = .error e c') : c'.log = c.log := by
  rcases bind_error h with h | ⟨memory, m₁, hmemory, h⟩
  · exact (silence.index c).of_error h
  have hlog₁ := (silence.index c).of_ok hmemory
  rcases bind_error h with h | ⟨offset, m₂, hoffset, h⟩
  · exact ((silence.expr m₁).of_error h).trans hlog₁
  have hlog₂ := (silence.expr m₁).of_ok hoffset
  rcases bind_error h with h | ⟨_, _, -, h⟩
  · exact ((silence.byteVector m₂).of_error h).trans (hlog₂.trans hlog₁)
  · cases h

/-- What is told about the items of a vector that are read one after the other: `tell` gives the
events from the number and the place of the first one. An item that fails is not told. -/
structure Decoder.Tells {α : Type} (bs : List UInt8) (d : Nat → Decoder α)
    (tell : (index p : Nat) → List α → List Event) : Prop where
  nil : ∀ index p, tell index p [] = []
  steps : ∀ ⦃index c as c'⦄, c.Reads bs → NumberedSteps d index c as c' →
    c'.log.toList = c.log.toList ++ tell index c.position as
  error : ∀ ⦃index c e c'⦄, d index c = .error e c' → c'.log = c.log

theorem Body.tells (bs : List UInt8) : Tells bs Body.decodeEntry (Body.eventsFrom bs) where
  nil _ _ := rfl
  steps index c bodies c' hc h := by
    induction h with
    | nil index c => rw [eventsFrom, List.append_nil]
    | @cons index c m c' body bodies head _ ih =>
      obtain ⟨hm, hpos, hlog⟩ := decodeEntry_eq_ok hc head
      rw [ih hm, hlog, hpos, eventsFrom, Array.toList_push, List.append_assoc]
      rfl
  error _ _ _ _ h := log_of_decodeEntry_error h

theorem DataSegment.tells (bs : List UInt8) :
    Tells bs (fun _ => DataSegment.decode) fun _ _ segments => segments.map .segment where
  nil _ _ := rfl
  steps index c segments c' hc h := by
    induction h with
    | nil index c => rw [List.map_nil, List.append_nil]
    | @cons index c m c' s segments head _ ih =>
      obtain ⟨xs, hp, -⟩ := (DataSegment.follows_decode (E := never)).sound head
      rw [ih (hc.passes hp), log_of_decode head, Array.toList_push, List.append_assoc]
      rfl
  error _ _ _ _ h := log_of_decode_error h

end WasmBinary
