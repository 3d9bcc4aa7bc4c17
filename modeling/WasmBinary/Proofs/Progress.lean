import WasmBinary.Proofs.Log.Basic
import WasmBinary.Proofs.Loop
import WasmBinary.Proofs.Stream.Module

/-! Progress. Each success of a decoder takes a byte at least that the stream has delivered, so a
loop makes no more successful rounds than there are bytes left, and a list cannot call for more
items than that, whatever count it announces. -/
namespace WasmBinary

open Decoder

/-- On the way from `c` to `c'` the stream delivers `bs`, and the position advances by as many
bytes. What comes after them is still to come, unless a read that failed has lost it. -/
structure Cursor.Receives (c : Cursor) (bs : List UInt8) (c' : Cursor) : Prop where
  position : c'.position = c.position + bs.length
  stop : c'.stop = c.stop
  pending : ∃ rest, c.pending = bs ++ rest ∧ (c'.pending = rest ∨ c'.pending = [])

theorem Cursor.Passes.receives {c c' : Cursor} {bs : List UInt8} (h : c.Passes bs c') :
    c.Receives bs c' :=
  ⟨h.position, h.stop, c'.pending, h.pending, .inl rfl⟩

namespace Cursor.Receives

variable {c m c' : Cursor} {bs cs : List UInt8}

theorem trans (h : c.Receives bs m) (h' : m.Receives cs c') : c.Receives (bs ++ cs) c' where
  position := by rw [h'.position, h.position, List.length_append, Nat.add_assoc]
  stop := h'.stop.trans h.stop
  pending := by
    obtain ⟨rest, hrest, hm⟩ := h.pending
    obtain ⟨rest', hrest', hc'⟩ := h'.pending
    rcases hm with hm | hm
    · exact ⟨rest', by rw [hrest, ← hm, hrest', List.append_assoc], hc'⟩
    · -- After a loss nothing more is delivered.
      obtain ⟨rfl, rfl⟩ := List.append_eq_nil_iff.1 (hrest'.symm.trans hm)
      exact ⟨rest, by rw [hrest, List.append_nil], .inr (hc'.elim id id)⟩

theorem left_add_length_le (h : c.Receives bs c') : c'.left + bs.length ≤ c.left := by
  obtain ⟨rest, hrest, hc'⟩ := h.pending
  have hlength := congrArg List.length hrest
  rw [List.length_append] at hlength
  unfold Cursor.left
  rcases hc' with hc' | hc'
  · rw [hc']
    omega
  · rw [hc', List.length_nil]
    omega

theorem readExact (h : c.Receives bs c') {s : Stream} (hs : c.place.Over s) :
    ∃ t, s.readExact bs.length = (.ok bs, t) ∧ (c'.place.Over t ∨ c'.pending = []) := by
  obtain ⟨rest, hrest, hc'⟩ := h.pending
  have hsupply : s.supply = (bs ++ rest, c.stop) := by
    rw [hs, ← hrest]
    rfl
  have hle : bs.length ≤ s.supply.1.length := by
    rw [hsupply, List.length_append]
    exact Nat.le_add_right _ _
  obtain ⟨t, hread, ht⟩ := Stream.readExact_of_le hle
  rw [hsupply, List.take_left] at hread
  rw [hsupply, List.drop_left] at ht
  refine ⟨t, hread, hc'.imp_left fun hc' => ?_⟩
  rw [Place.Over, ht, ← hc', ← h.stop]
  rfl

end Cursor.Receives

namespace Decoder

variable {α β : Type} {d : Decoder α} {c m c' : Cursor}

/-- Success comes with the bytes that the stream has delivered, if any. -/
def Reads (d : Decoder α) : Prop :=
  ∀ ⦃c a c'⦄, d c = .ok a c' → ∃ bs, c.Receives bs c'

/-- Success takes a byte at least. -/
def Progresses (d : Decoder α) : Prop :=
  ∀ ⦃c a c'⦄, d c = .ok a c' → ∃ bs, bs ≠ [] ∧ c.Receives bs c'

theorem Progresses.advances (hd : Progresses d) : Advances d := by
  intro c a c' h
  obtain ⟨bs, hne, hreceives⟩ := hd h
  have hleft := hreceives.left_add_length_le
  have hpos := List.length_pos_of_ne_nil hne
  omega

theorem reads_pure (a : α) : Reads (pure a : Decoder α) := by
  intro c b c' h
  obtain ⟨-, rfl⟩ := EStateM.Result.ok.inj h
  exact ⟨[], (Cursor.Passes.refl c).receives⟩

theorem Reads.bind {f : α → Decoder β} (hd : Reads d) (hf : ∀ a, Reads (f a)) :
    Reads (d >>= f) := by
  intro c b c' h
  obtain ⟨a, m, ha, hb⟩ := bind_ok h
  obtain ⟨bs, hfirst⟩ := hd ha
  obtain ⟨cs, hrest⟩ := hf a hb
  exact ⟨bs ++ cs, hfirst.trans hrest⟩

theorem Progresses.bind {f : α → Decoder β} (hd : Progresses d) (hf : ∀ a, Reads (f a)) :
    Progresses (d >>= f) := by
  intro c b c' h
  obtain ⟨a, m, ha, hb⟩ := bind_ok h
  obtain ⟨bs, hne, hfirst⟩ := hd ha
  obtain ⟨cs, hrest⟩ := hf a hb
  exact ⟨bs ++ cs, by simp [hne], hfirst.trans hrest⟩

private theorem reads_timesFrom {d : Nat → Decoder α} (hd : ∀ i, Reads (d i)) (index count : Nat)
    (items : List α) : Reads (timesFrom d index count items) := by
  induction count generalizing index items with
  | zero => exact reads_pure _
  | succ count ih => exact (hd index).bind fun a => ih (index + 1) (a :: items)

/-- A run that succeeds has lost nothing, since no decoder goes on after a read that failed. -/
theorem Makes.passes {calls : List Call} {r : EStateM.Result DecodeError Cursor α} {a : α}
    (h : Makes d c calls r) (hr : r = .ok a c') : ∃ bs, c.Passes bs c' := by
  induction h generalizing c' with
  | pure | position | report | done =>
    obtain ⟨-, rfl⟩ := EStateM.Result.ok.inj hr
    exact ⟨[], rfl, rfl, rfl, rfl, rfl⟩
  | fail | failAt | bindError => cases hr
  | byte c =>
    obtain ⟨bs, hp, -⟩ := (follows_byte (E := never)).sound hr
    exact ⟨bs, hp⟩
  | bytes n c =>
    obtain ⟨bs, hp, -⟩ := (follows_bytes (E := never) n).sound hr
    exact ⟨bs, hp⟩
  | read n c =>
    obtain ⟨bs, hp, -⟩ := (follows_read (E := never) n).sound hr
    exact ⟨bs, hp⟩
  | bind _ _ ih ih' =>
    obtain ⟨bs, hp⟩ := ih rfl
    obtain ⟨cs, hp'⟩ := ih' hr
    exact ⟨bs ++ cs, hp.trans hp'⟩
  | @next _ _ _ _ r _ ih | @inSection _ _ _ _ _ r _ ih =>
    cases r with
    | ok b m =>
      obtain ⟨rfl, rfl⟩ := EStateM.Result.ok.inj hr
      exact ih rfl
    | error e m => cases hr
  | @withBound _ _ _ _ _ r _ ih =>
    cases r with
    | ok b m =>
      obtain ⟨rfl, rfl⟩ := EStateM.Result.ok.inj hr
      obtain ⟨bs, hp⟩ := ih rfl
      exact ⟨bs, hp.pending, hp.position, hp.stop, hp.totalSize, rfl⟩
    | error e m => cases hr
  | again _ _ ih => exact ih hr

theorem Traced.progresses (hd : Traced d) (hadvances : Advances d) : Progresses d := by
  intro c a c' h
  obtain ⟨calls, r, hcalls⟩ := hd c
  obtain ⟨bs, hp⟩ := hcalls.passes (hcalls.eq.symm.trans h)
  refine ⟨bs, ?_, hp.receives⟩
  intro hnil
  have hless := hadvances h
  have hsame : c.pending = c'.pending := by rw [hp.pending, hnil, List.nil_append]
  rw [Cursor.left, Cursor.left, hsame] at hless
  exact Nat.lt_irrefl _ hless

/-- The decoders of integers, names, types, instructions and sections, of the items that a section
may list, and of lists of items of any kind. -/
inductive BuiltIn : {α : Type} → Decoder α → Prop
  | byte : BuiltIn byte
  | unsigned (width : Nat) : BuiltIn (Leb128.unsigned width)
  | signed (width : Nat) : BuiltIn (Leb128.signed width)
  | u32 : BuiltIn Leb128.u32
  | u64 : BuiltIn Leb128.u64
  | i32 : BuiltIn Leb128.i32
  | i64 : BuiltIn Leb128.i64
  | s33 : BuiltIn Leb128.s33
  | byteVector : BuiltIn byteVector
  | name : BuiltIn name
  | valType : BuiltIn ValType.decode
  | index (space : IndexSpace) : BuiltIn (Index.decode : Decoder (Index space))
  | funcType : BuiltIn FuncType.decode
  | limits : BuiltIn Limits.decode
  | exportItem : BuiltIn Export.decode
  | instruction : BuiltIn Instruction.decode
  | expr : BuiltIn Expr.decode
  | localGroup : BuiltIn LocalGroup.decode
  | body (declared : UInt32) : BuiltIn (Body.decode declared)
  | bodyEntry (index : Nat) : BuiltIn (Body.decodeEntry index)
  | dataSegment : BuiltIn DataSegment.decode
  | entry : BuiltIn SectionEntry.decode
  | list {α : Type} {d : Nat → Decoder α} (items : ∀ i, Reads (d i)) : BuiltIn (indexedVector d)

theorem BuiltIn.progresses (h : BuiltIn d) : Progresses d := by
  cases h with
  | byte => exact Traced.progresses tracing.byte advances_byte
  | unsigned width =>
    exact Traced.progresses (tracing.unsigned width) (Leb128.advances_unsigned width)
  | signed width => exact Traced.progresses (tracing.signed width) (Leb128.advances_signed width)
  | u32 => exact Traced.progresses tracing.u32 Leb128.advances_u32
  | u64 => exact Traced.progresses (tracing.map (tracing.unsigned 64) _) Leb128.advances_u64
  | i32 => exact Traced.progresses tracing.i32 Leb128.advances_i32
  | i64 => exact Traced.progresses tracing.i64 Leb128.advances_i64
  | s33 => exact Traced.progresses (tracing.signed 33) Leb128.advances_s33
  | byteVector => exact Traced.progresses tracing.byteVector advances_byteVector
  | name => exact Traced.progresses tracing.name advances_name
  | valType => exact Traced.progresses tracing.valType ValType.advances_decode
  | index => exact Traced.progresses tracing.index Index.advances_decode
  | funcType => exact Traced.progresses tracing.funcType FuncType.advances_decode
  | limits => exact Traced.progresses tracing.limits Limits.advances_decode
  | exportItem => exact Traced.progresses tracing.exportItem Export.advances_decode
  | instruction => exact Traced.progresses tracing.instruction Instruction.advances_decode
  | expr => exact Traced.progresses tracing.expr Expr.advances_decode
  | localGroup => exact Traced.progresses tracing.localGroup LocalGroup.advances_decode
  | body declared => exact Traced.progresses (tracing.body declared) (Body.advances_decode declared)
  | bodyEntry index => exact (traced_bodyEntry index).progresses (Body.advances_decodeEntry index)
  | dataSegment => exact traced_dataSegment.progresses DataSegment.advances_decode
  | entry => exact traced_entry.progresses SectionEntry.advances_decode
  | list items =>
    have hcount : Progresses Leb128.u32 := Traced.progresses tracing.u32 Leb128.advances_u32
    exact hcount.bind fun count => reads_timesFrom items 0 count.toNat []

/-! ### Rounds of a loop -/

/-- A loop over `d`, which begins at `c` and ends with the result `r`: its successful rounds give
`items`, and the number of all rounds is `calls`. A loop that fails has made one more, the one that
failed. -/
inductive Runs (d : Nat → Decoder α) (c : Cursor) :
    List α → Nat → EStateM.Result DecodeError Cursor (List α) → Prop
  | stopped {items : List α} {m : Cursor} (rounds : NumberedSteps d 0 c items m) :
    Runs d c items items.length (.ok items m)
  | failed {items : List α} {m c' : Cursor} {e : DecodeError}
    (rounds : NumberedSteps d 0 c items m) (last : d items.length m = .error e c') :
    Runs d c items (items.length + 1) (.error e c')

variable {items : List α} {calls : Nat} {r : EStateM.Result DecodeError Cursor (List α)}

theorem NumberedSteps.length_add_left_le {d : Nat → Decoder α} (hd : ∀ i, Advances (d i))
    {index : Nat} (h : NumberedSteps d index c items m) : items.length + m.left ≤ c.left := by
  induction h with
  | nil index c => simp
  | cons head _ ih =>
    have hless := hd _ head
    rw [List.length_cons]
    omega

theorem Runs.length_le_left {d : Nat → Decoder α} (hd : ∀ i, Advances (d i))
    (h : Runs d c items calls r) : items.length ≤ c.left := by
  cases h with
  | stopped rounds =>
    have hle := rounds.length_add_left_le hd
    omega
  | failed rounds last =>
    have hle := rounds.length_add_left_le hd
    omega

private theorem NumberedSteps.eq_of_error {d : Nat → Decoder α} {index : Nat} {items' : List α}
    {m' c₁ c₂ : Cursor} {e₁ e₂ : DecodeError} (h : NumberedSteps d index c items m)
    (he : d (index + items.length) m = .error e₁ c₁) (h' : NumberedSteps d index c items' m')
    (he' : d (index + items'.length) m' = .error e₂ c₂) : items = items' := by
  induction h generalizing items' with
  | nil index c =>
    cases h' with
    | nil => rfl
    | cons head' _ => cases he.symm.trans head'
  | @cons index c m _ a items head _ ih =>
    cases h' with
    | nil => cases he'.symm.trans head
    | @cons _ _ _ _ _ items' head' tail' =>
      obtain ⟨rfl, rfl⟩ := EStateM.Result.ok.inj (head.symm.trans head')
      have hnumber (as : List α) : index + (a :: as).length = index + 1 + as.length := by
        rw [List.length_cons]
        omega
      rw [hnumber] at he he'
      exact congrArg (a :: ·) (ih he tail' he')

theorem Runs.unique {d : Nat → Decoder α} {items' : List α} {calls' : Nat}
    (h : Runs d c items calls r) (h' : Runs d c items' calls' r) :
    items = items' ∧ calls = calls' := by
  cases h with
  | stopped rounds =>
    cases h'
    exact ⟨rfl, rfl⟩
  | failed rounds last =>
    cases h' with
    | failed rounds' last' =>
      rw [← Nat.zero_add items.length] at last
      rw [← Nat.zero_add items'.length] at last'
      have hitems := rounds.eq_of_error last rounds' last'
      exact ⟨hitems, by rw [hitems]⟩

private theorem Runs.calls_le {d : Nat → Decoder α} (h : Runs d c items calls r) :
    calls ≤ items.length + 1 := by
  cases h with
  | stopped => exact Nat.le_succ _
  | failed => exact Nat.le_refl _

theorem exists_runs_collectWhile (more : Cursor → Bool) (hd : Advances d) (c : Cursor) :
    ∃ items calls, Runs (fun _ => d) c items calls (collectWhile more d hd c) := by
  cases h : collectWhile more d hd c with
  | ok items c' => exact ⟨items, _, .stopped (steps_of_collectWhile h).1.numbered⟩
  | error e c' =>
    obtain ⟨items, m, hsteps, -, hlast⟩ := steps_of_collectWhile_error h
    exact ⟨items, _, .failed hsteps.numbered hlast⟩

theorem exists_runs_collectUntil {σ : Type} (next? : σ → α → Option σ) (hd : Advances d) (s : σ)
    (c : Cursor) :
    ∃ items calls, Runs (fun _ => d) c items calls (collectUntil next? d hd s c) := by
  cases h : collectUntil next? d hd s c with
  | ok items c' => exact ⟨items, _, .stopped (collectUntil_eq_ok_iff.1 h).1.numbered⟩
  | error e c' =>
    obtain ⟨items, m, hsteps, hlast⟩ := steps_of_collectUntil_error h
    exact ⟨items, _, .failed hsteps.numbered hlast⟩

theorem exists_runs_times (count : Nat) (d : Nat → Decoder α) (c : Cursor) :
    ∃ items calls, Runs d c items calls (times count d c) ∧ calls ≤ count := by
  cases h : times count d c with
  | ok items c' =>
    obtain ⟨hlength, hsteps⟩ := steps_of_timesFrom h
    exact ⟨items, _, .stopped hsteps, Nat.le_of_eq hlength⟩
  | error e c' =>
    obtain ⟨items, m, hsteps, hlength, hlast⟩ := steps_of_timesFrom_error h
    rw [Nat.zero_add] at hlast
    exact ⟨items, _, .failed hsteps hlast, hlength⟩

theorem times_eq_error {d : Nat → Decoder α} (hd : ∀ i, Advances (d i)) {count : Nat}
    (h : c.left < count) : ∃ e c', times count d c = .error e c' := by
  cases hr : times count d c with
  | ok items c' =>
    obtain ⟨hlength, hsteps⟩ := steps_of_timesFrom hr
    have hle := hsteps.length_add_left_le hd
    omega
  | error e c' => exact ⟨e, c', rfl⟩

private theorem indexedVector_of_count {d : Nat → Decoder α} {count : UInt32}
    (h : Leb128.u32 c = .ok count m) : indexedVector d c = times count.toNat d m := by
  rw [indexedVector, bind_apply, h]

/-- How decoders go on, from any cursor and whatever stream it stands over. -/
structure MakesProgress : Prop where
  /-- A success takes a byte at least: the stream delivers it, and the position advances by as many
  bytes as it delivers. -/
  success : ∀ {α : Type} {d : Decoder α}, BuiltIn d → ∀ ⦃c a c'⦄, d c = .ok a c' →
    ∃ bs, bs ≠ [] ∧ c'.position = c.position + bs.length ∧ bs <+: c.pending ∧
      ∀ s, c.place.Over s → ∃ t, s.readExact bs.length = (.ok bs, t) ∧
        (c'.place.Over t ∨ c'.pending = [])
  sections : ∀ c, ∃ entries calls,
    Runs (fun _ => SectionEntry.decode) c entries calls (SectionEntry.decodeAll c) ∧
      entries.length ≤ c.left
  expression : ∀ c, ∃ e calls,
    Runs (fun _ => Instruction.decode) c e calls (Expr.decode c) ∧ e.length ≤ c.left
  body : ∀ start declared c, ∃ e calls, Runs (fun _ => Instruction.decode) c e calls (collectWhile
    (Body.hasMore start declared) Instruction.decode Instruction.advances_decode c) ∧
      e.length ≤ c.left
  /-- A list of items of a kind known here makes one round more at most, whatever its count. -/
  list : ∀ {α : Type} {d : Nat → Decoder α}, (∀ i, BuiltIn (d i)) → ∀ ⦃c count m⦄,
    Leb128.u32 c = .ok count m → ∃ items calls, Runs d m items calls (indexedVector d c) ∧
      calls ≤ count.toNat ∧ calls ≤ m.left + 1
  overlong : ∀ {α : Type} {d : Nat → Decoder α}, (∀ i, BuiltIn (d i)) → ∀ ⦃c count m⦄,
    Leb128.u32 c = .ok count m → m.left < count.toNat → ∃ e c', indexedVector d c = .error e c'

/-- A success takes a byte at least. So the loops over the sections of a module, over the
instructions of an expression and over those of a body make no more successful rounds than bytes are
left, and a list that announces more items than that fails. -/
theorem success_takes_byte_and_rounds_le_left : MakesProgress where
  success hd c a c' h := by
    obtain ⟨bs, hne, hreceives⟩ := hd.progresses h
    obtain ⟨rest, hrest, -⟩ := hreceives.pending
    exact ⟨bs, hne, hreceives.position, ⟨rest, hrest.symm⟩, fun s hs => hreceives.readExact hs⟩
  sections c := by
    obtain ⟨entries, calls, hruns⟩ := exists_runs_collectWhile (fun c => !c.isAtEnd)
      SectionEntry.advances_decode c
    exact ⟨entries, calls, hruns, hruns.length_le_left fun _ => SectionEntry.advances_decode⟩
  expression c := by
    obtain ⟨e, calls, hruns⟩ := exists_runs_collectUntil Instruction.depthAfter?
      Instruction.advances_decode 0 c
    exact ⟨e, calls, hruns, hruns.length_le_left fun _ => Instruction.advances_decode⟩
  body start declared c := by
    obtain ⟨e, calls, hruns⟩ := exists_runs_collectWhile (Body.hasMore start declared)
      Instruction.advances_decode c
    exact ⟨e, calls, hruns, hruns.length_le_left fun _ => Instruction.advances_decode⟩
  list {α d} hd c count m hcount := by
    rw [indexedVector_of_count hcount]
    obtain ⟨items, calls, hruns, hle⟩ := exists_runs_times count.toNat d m
    have hitems := hruns.length_le_left fun i => (hd i).progresses.advances
    have hcalls := hruns.calls_le
    exact ⟨items, calls, hruns, hle, by omega⟩
  overlong hd c count m hcount hlong := by
    rw [indexedVector_of_count hcount]
    exact times_eq_error (fun i => (hd i).progresses.advances) hlong

/-- Items that take nothing are paid for by the count alone. A list of types announces as many as it
can, with one byte after the count: there are two rounds at most, and the last one fails. -/
theorem success_takes_byte_and_rounds_le_left_hostile :
    (∃ c', vector (pure 7 : Decoder Nat) (.ofBytes [3]) = .ok [7, 7, 7] c' ∧ c'.position = 1 ∧
      ∃ t, (Stream.ofBytes [3] 0).readExact 1 = (.ok [3], t)) ∧
    ∃ count m, Leb128.u32 (.ofBytes [0xFF, 0xFF, 0xFF, 0xFF, 0x0F, 0x7F]) = .ok count m ∧
      count.toNat = 4294967295 ∧ m.left = 1 ∧
      (∀ items calls, Runs (fun _ => ValType.decode) m items calls
        (vector ValType.decode (.ofBytes [0xFF, 0xFF, 0xFF, 0xFF, 0x0F, 0x7F])) → calls ≤ 2) ∧
      ∃ e c', vector ValType.decode (.ofBytes [0xFF, 0xFF, 0xFF, 0xFF, 0x0F, 0x7F]) =
        .error e c' := by
  have htheorem := success_takes_byte_and_rounds_le_left
  constructor
  · have hlist : vector (pure 7 : Decoder Nat) (.ofBytes [3]) =
        .ok [7, 7, 7] ⟨[], .endOfInput, 1, 1, 1, #[]⟩ := rfl
    have hbuilt : BuiltIn (vector (pure 7 : Decoder Nat)) := .list fun _ => reads_pure 7
    obtain ⟨bs, hne, hposition, hp, hstream⟩ := htheorem.success hbuilt hlist
    have hbs : bs = [3] := by
      rcases List.prefix_cons_iff.1 hp with hnil | ⟨rest, hrest, hnone⟩
      · exact absurd hnil hne
      · rw [hrest, List.prefix_nil.1 hnone]
    subst hbs
    obtain ⟨t, ht, -⟩ := hstream (.ofBytes [3] 0) (Cursor.over_atStart _)
    exact ⟨_, hlist, hposition, t, ht⟩
  · have hcount : Leb128.u32 (.ofBytes [0xFF, 0xFF, 0xFF, 0xFF, 0x0F, 0x7F]) =
        .ok 0xFFFFFFFF ⟨[0x7F], .endOfInput, 5, 6, 6, #[]⟩ := rfl
    have hitem : ∀ _ : Nat, BuiltIn ValType.decode := fun _ => .valType
    obtain ⟨items, calls, hruns, -, hle⟩ := htheorem.list hitem hcount
    have herror := htheorem.overlong hitem hcount (by decide)
    refine ⟨_, _, hcount, rfl, rfl, fun items' calls' hruns' => ?_, herror⟩
    rw [← (hruns.unique hruns').2]
    exact hle

end Decoder
end WasmBinary
