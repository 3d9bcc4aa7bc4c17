import WasmBinary.Proofs.Leb128.Exact
import WasmBinary.Proofs.Loop
import WasmBinary.Proofs.Trace.Basic

/-! How far a function body is read. The local groups are followed by instructions up to the first
boundary between two of them that lies at the declared size or beyond it, or at the bound of the
section or beyond it. The body is accepted if that boundary is the declared size. -/
namespace WasmBinary

open Decoder

theorem Instruction.position_le_of_steps {c c' : Cursor} {e : Expr} (h : Steps decode c e c') :
    c.position ≤ c'.position := by
  obtain ⟨bs, hpass, -⟩ := h.each (Instruction.follows_decode (E := never)).sound
  rw [hpass.position]
  exact Nat.le_add_right _ _

private theorem Instruction.position_lt_of_steps {c c' : Cursor} {e : Expr}
    (h : Steps decode c e c') (he : e ≠ []) : c.position < c'.position := by
  obtain ⟨bs, hpass, heach⟩ := h.each (Instruction.follows_decode (E := never)).sound
  have hpos := hpass.position
  cases heach with
  | nil => exact absurd rfl he
  | cons head _ =>
    cases head
    rw [List.length_append, List.length_cons] at hpos
    omega

namespace Body

variable {bs : List UInt8} {declared : UInt32} {c m m' : Cursor} {locals locals' : List LocalGroup}
  {e e' : Expr} {k : Nat}

/-! ### Boundaries -/

/-- From `c` on, the local groups and then the instructions `e` can be read, up to `m`. -/
def Boundary (c : Cursor) (locals : List LocalGroup) (e : Expr) (m : Cursor) : Prop :=
  ∃ l, vector LocalGroup.decode c = .ok locals l ∧ Steps Instruction.decode l e m

namespace Boundary

theorem exists_passes (h : Boundary c locals e m) :
    ∃ ls is, c.Passes (ls ++ is) m ∧ Format.Vector LocalGroup.Encodes ls locals ∧
      Format.Each Instruction.Encodes is e := by
  obtain ⟨l, hlocals, hsteps⟩ := h
  obtain ⟨ls, hpl, hl⟩ := (follows_vector (E := never) LocalGroup.follows_decode).sound hlocals
  obtain ⟨is, hpi, hi⟩ := hsteps.each (Instruction.follows_decode (E := never)).sound
  exact ⟨ls, is, hpl.trans hpi, hl, hi⟩

theorem position_le (h : Boundary c locals e m) : c.position ≤ m.position := by
  obtain ⟨ls, is, hpass, -, -⟩ := h.exists_passes
  rw [hpass.position]
  exact Nat.le_add_right _ _

theorem bound_eq (h : Boundary c locals e m) : m.bound = c.bound := by
  obtain ⟨ls, is, hpass, -, -⟩ := h.exists_passes
  exact hpass.bound

private theorem hasMore_iff (h : Boundary c locals e m) : hasMore c.position declared m = true ↔
    m.position < c.position + declared.toNat ∧ m.position < c.bound := by
  have hle := h.position_le
  rw [hasMore, Bool.and_eq_true, decide_eq_true_iff, decide_eq_true_iff, h.bound_eq]
  omega

private theorem exists_common (h : Boundary c locals e m) (h' : Boundary c locals' e' m') :
    locals = locals' ∧
      ∃ l, Steps Instruction.decode l e m ∧ Steps Instruction.decode l e' m' := by
  obtain ⟨l, hlocals, hsteps⟩ := h
  obtain ⟨l', hlocals', hsteps'⟩ := h'
  obtain ⟨rfl, rfl⟩ := EStateM.Result.ok.inj (hlocals.symm.trans hlocals')
  exact ⟨rfl, l, hsteps, hsteps'⟩

theorem unique (h : Boundary c locals e m) (h' : Boundary c locals' e m') : m = m' := by
  obtain ⟨-, l, hsteps, hsteps'⟩ := h.exists_common h'
  exact hsteps.unique hsteps'

theorem exists_steps (h : Boundary c locals e m) (h' : Boundary c locals' e' m') (hp : e <+: e') :
    ∃ rest, e' = e ++ rest ∧ Steps Instruction.decode m rest m' := by
  obtain ⟨-, l, hsteps, hsteps'⟩ := h.exists_common h'
  exact hsteps.exists_rest hsteps' hp

theorem prefix_or_prefix (h : Boundary c locals e m) (h' : Boundary c locals' e' m') :
    e <+: e' ∨ e' <+: e := by
  obtain ⟨-, l, hsteps, hsteps'⟩ := h.exists_common h'
  exact hsteps.prefix_or_prefix hsteps'

theorem position_lt (h : Boundary c locals e m) (h' : Boundary c locals' e' m') (hp : e <+: e')
    (hne : e ≠ e') : m.position < m'.position := by
  obtain ⟨rest, rfl, hrest⟩ := h.exists_steps h' hp
  refine Instruction.position_lt_of_steps hrest fun hnil => hne ?_
  rw [hnil, List.append_nil]

theorem prefix_of_position_lt (h : Boundary c locals e m) (h' : Boundary c locals' e' m')
    (hlt : m.position < m'.position) : e <+: e' ∧ e ≠ e' := by
  have hne : e ≠ e' := by
    intro heq
    subst heq
    rw [h.unique h'] at hlt
    exact Nat.lt_irrefl _ hlt
  rcases h.prefix_or_prefix h' with hp | hp
  · exact ⟨hp, hne⟩
  · exact absurd (h'.position_lt h hp hne.symm) (Nat.lt_asymm hlt)

end Boundary

/-- The `k` bytes from the place `p` on are an encoding of the local groups, followed by one of each
instruction of `e`. -/
def Spans (bs : List UInt8) (p : Nat) (locals : List LocalGroup) (e : Expr) (k : Nat) : Prop :=
  p + k ≤ bs.length ∧ ∃ ls is, (bs.drop p).take k = ls ++ is ∧
    Format.Vector LocalGroup.Encodes ls locals ∧ Format.Each Instruction.Encodes is e

/-- An instruction, or the local groups, can end `k` bytes after the place `p`. -/
def IsBoundary (bs : List UInt8) (p k : Nat) : Prop :=
  ∃ locals e, Spans bs p locals e k

theorem spans_iff (hc : c.Reads bs) : Spans bs c.position locals e k ↔
    ∃ m, Boundary c locals e m ∧ m.position = c.position + k := by
  constructor
  · intro h
    obtain ⟨hle, ls, is, htake, hl, hi⟩ := h
    have hpending : c.pending = ls ++ (is ++ (bs.drop c.position).drop k) := by
      rw [← List.append_assoc, ← htake, List.take_append_drop, hc.pending]
    obtain ⟨l, hlocals, hpl⟩ :=
      ((follows_vector LocalGroup.follows_decode).complete hl).succeeds hc.honest hpending
    obtain ⟨m, hsteps, hpi⟩ := Instruction.follows_decode.steps_of_each hi
      (hpl.honest hc.honest) (hpl.pending_eq hpending)
    have hlen : (ls ++ is).length = k := by
      rw [← htake, List.length_take, List.length_drop]
      omega
    exact ⟨m, ⟨l, hlocals, hsteps⟩, hlen ▸ (hpl.trans hpi).position⟩
  · intro h
    obtain ⟨m, hboundary, hpos⟩ := h
    obtain ⟨ls, is, hpass, hl, hi⟩ := hboundary.exists_passes
    have hlen : (ls ++ is).length = k := by
      have hpos' := hpass.position
      omega
    have htake : (bs.drop c.position).take k = ls ++ is := by
      rw [← hc.pending, hpass.pending, ← hlen, List.take_left]
    exact ⟨hpos ▸ (hc.passes hpass).position, ls, is, htake, hl, hi⟩

theorem Boundary.spans (h : Boundary c locals e m) (hc : c.Reads bs) :
    Spans bs c.position locals e (m.position - c.position) := by
  have hle := h.position_le
  exact (spans_iff hc).2 ⟨m, h, by omega⟩

/-! ### The end of a body -/

/-- The body ends at the boundary `m`: there, and nowhere before, the declared size or the bound of
the section is reached. -/
structure EndsAt (declared : UInt32) (c : Cursor) (locals : List LocalGroup) (e : Expr)
    (m : Cursor) : Prop where
  boundary : Boundary c locals e m
  stops : c.position + declared.toNat ≤ m.position ∨ c.bound ≤ m.position
  goes_on : ∀ e' m', e' <+: e → e' ≠ e → Boundary c locals e' m' →
    m'.position < c.position + declared.toNat ∧ m'.position < c.bound

/-- Reading a body with `d` in place of the decoder of instructions. -/
def decodeWith (d : Decoder Instruction) (hd : Advances d) (declared : UInt32) : Decoder Body := do
  let start ← position
  let locals ← vector LocalGroup.decode
  let instructions ← collectWhile (hasMore start declared) d hd
  checkSize start ⟨declared, locals, instructions⟩

theorem decode_eq_decodeWith :
    Body.decode declared = decodeWith Instruction.decode Instruction.advances_decode declared :=
  rfl

theorem decodeWith_apply (d : Decoder Instruction) (hd : Advances d) (declared : UInt32)
    (c : Cursor) : decodeWith d hd declared c = (vector LocalGroup.decode >>= fun locals =>
      collectWhile (hasMore c.position declared) d hd >>= fun e =>
        checkSize c.position ⟨declared, locals, e⟩) c :=
  rfl

theorem decode_of_endsAt (h : EndsAt declared c locals e m) :
    Body.decode declared c = checkSize c.position ⟨declared, locals, e⟩ m := by
  obtain ⟨l, hlocals, hsteps⟩ := h.boundary
  have hstop : hasMore c.position declared m = false := by
    rw [← Bool.not_eq_true, h.boundary.hasMore_iff]
    have hstops := h.stops
    omega
  have hgo : GoesOn (hasMore c.position declared) Instruction.decode l e := by
    intro e' m' hp hne hsteps'
    have hboundary : Boundary c locals e' m' := ⟨l, hlocals, hsteps'⟩
    exact hboundary.hasMore_iff.2 (h.goes_on e' m' hp hne hboundary)
  have hloop : collectWhile (hasMore c.position declared) Instruction.decode
      Instruction.advances_decode l = .ok e m :=
    collectWhile_eq_ok_iff.2 ⟨hsteps, hstop, hgo⟩
  rw [decode_eq_decodeWith, decodeWith_apply, bind_apply, hlocals]
  dsimp only
  rw [bind_apply, hloop]

/-- What can become of a body: its local groups fail, or an instruction does that begins before the
declared size and the bound, or it is read up to where it ends. -/
theorem decode_cases (declared : UInt32) (c : Cursor) :
    (∃ error c', vector LocalGroup.decode c = .error error c' ∧
      Body.decode declared c = .error error c') ∨
    (∃ locals e m error c', Boundary c locals e m ∧
      (m.position < c.position + declared.toNat ∧ m.position < c.bound) ∧
      Instruction.decode m = .error error c' ∧ Body.decode declared c = .error error c') ∨
    ∃ locals e m, EndsAt declared c locals e m := by
  cases hlocals : vector LocalGroup.decode c with
  | error error c' =>
    refine .inl ⟨error, c', rfl, ?_⟩
    rw [decode_eq_decodeWith, decodeWith_apply, bind_apply, hlocals]
  | ok locals l =>
    refine .inr ?_
    cases hloop : collectWhile (hasMore c.position declared) Instruction.decode
        Instruction.advances_decode l with
    | error error c' =>
      obtain ⟨e, m, hsteps, hmore, herror⟩ := steps_of_collectWhile_error hloop
      have hboundary : Boundary c locals e m := ⟨l, hlocals, hsteps⟩
      have hdecode : Body.decode declared c = .error error c' := by
        rw [decode_eq_decodeWith, decodeWith_apply, bind_apply, hlocals]
        dsimp only
        rw [bind_apply, hloop]
      exact .inl ⟨locals, e, m, error, c', hboundary, hboundary.hasMore_iff.1 hmore, herror,
        hdecode⟩
    | ok e m =>
      obtain ⟨hsteps, hstop, hgo⟩ := collectWhile_eq_ok_iff.1 hloop
      have hboundary : Boundary c locals e m := ⟨l, hlocals, hsteps⟩
      refine .inr ⟨locals, e, m, hboundary, ?_, ?_⟩
      · rw [← Bool.not_eq_true, hboundary.hasMore_iff] at hstop
        omega
      · intro e' m' hp hne hboundary'
        refine hboundary'.hasMore_iff.1 ?_
        obtain ⟨l', hlocals', hsteps'⟩ := hboundary'
        obtain ⟨-, rfl⟩ := EStateM.Result.ok.inj (hlocals.symm.trans hlocals')
        exact hgo e' m' hp hne hsteps'

/-- Neither the local groups nor the instructions fail with the mismatch of a body. If they did,
they would do so in a section of types too, where the error is not true. -/
theorem ne_mismatch {α : Type} {d : Decoder α} (hd : Explains bs .types d) (hc : c.Reads bs)
    {error : DecodeError} {c' : Cursor} (h : d c = .error error c') (offset : Nat) :
    error ≠ ⟨.bodySizeMismatch declared k, offset, none⟩ := by
  have hfits := hd hc
  rw [h] at hfits
  intro heq
  subst heq
  exact absurd hfits.trueOf.1 (by simp [DecodeError.inSection])

theorem exists_endsAt_or_error (declared : UInt32) (hc : c.Reads bs) :
    (∃ locals e m, EndsAt declared c locals e m) ∨
      ∃ error c', Body.decode declared c = .error error c' ∧
        ∀ k, error ≠ ⟨.bodySizeMismatch declared k, c.position, none⟩ := by
  rcases decode_cases declared c with ⟨error, c', hlocals, hdecode⟩ |
    ⟨locals, e, m, error, c', hboundary, -, herror, hdecode⟩ | hends
  · exact .inr ⟨error, c', hdecode,
      fun k => ne_mismatch (explains_vector explains_localGroup) hc hlocals _⟩
  · obtain ⟨ls, is, hpass, -, -⟩ := hboundary.exists_passes
    exact .inr ⟨error, c', hdecode,
      fun k => ne_mismatch explains_instruction (hc.passes hpass) herror _⟩
  · exact .inl hends

/-! ### Exactness -/

private theorem answerOf_checkSize {start : Nat} {body : Body} : answerOf (checkSize start body m) =
    if m.position - start = body.size.toNat then .ok body
    else .error ⟨.bodySizeMismatch body.size (m.position - start), start, none⟩ := by
  rw [checkSize_apply]
  split <;> rfl

theorem answer_eq_ok_iff (hc : c.Reads bs) :
    answerOf (Body.decode declared c) = .ok ⟨declared, locals, e⟩ ↔
      ∃ m, EndsAt declared c locals e m ∧ m.position = c.position + declared.toNat := by
  constructor
  · intro h
    rcases exists_endsAt_or_error declared hc with ⟨locals', e', m, hends⟩ | ⟨error, c', herror, -⟩
    · have hle := hends.boundary.position_le
      rw [decode_of_endsAt hends, answerOf_checkSize] at h
      split at h
      · next hsize =>
        have hconsumed : m.position - c.position = declared.toNat := hsize
        cases h
        exact ⟨m, hends, by omega⟩
      · cases h
    · rw [herror] at h
      cases h
  · intro h
    obtain ⟨m, hends, hpos⟩ := h
    have hconsumed : m.position - c.position = declared.toNat := by omega
    rw [decode_of_endsAt hends, answerOf_checkSize, if_pos hconsumed]

theorem answer_eq_mismatch_iff (hc : c.Reads bs) :
    answerOf (Body.decode declared c) = .error ⟨.bodySizeMismatch declared k, c.position, none⟩ ↔
      (∃ locals e m, EndsAt declared c locals e m ∧ m.position = c.position + k) ∧
        k ≠ declared.toNat := by
  constructor
  · intro h
    rcases exists_endsAt_or_error declared hc with ⟨locals, e, m, hends⟩ | ⟨error, c', herror, hne⟩
    · have hle := hends.boundary.position_le
      rw [decode_of_endsAt hends, answerOf_checkSize] at h
      split at h
      · cases h
      · next hsize =>
        cases h
        exact ⟨⟨locals, e, m, hends, by omega⟩, hsize⟩
    · rw [herror] at h
      exact absurd (Except.error.inj h) (hne k)
  · intro h
    obtain ⟨⟨locals, e, m, hends, hpos⟩, hne⟩ := h
    have hconsumed : m.position - c.position = k := by omega
    rw [decode_of_endsAt hends, answerOf_checkSize, hconsumed, if_neg hne]

theorem endsAt_declared_iff (hc : c.Reads bs) :
    (∃ m, EndsAt declared c locals e m ∧ m.position = c.position + declared.toNat) ↔
      Spans bs c.position locals e declared.toNat ∧
        ∀ e' k, e' <+: e → e' ≠ e → Spans bs c.position locals e' k → c.position + k < c.bound := by
  constructor
  · intro h
    obtain ⟨m, hends, hpos⟩ := h
    refine ⟨(spans_iff hc).2 ⟨m, hends.boundary, hpos⟩, fun e' k hp hne hspans => ?_⟩
    obtain ⟨m', hboundary, hpos'⟩ := (spans_iff hc).1 hspans
    rw [← hpos']
    exact (hends.goes_on e' m' hp hne hboundary).2
  · intro h
    obtain ⟨hspans, hbelow⟩ := h
    obtain ⟨m, hboundary, hpos⟩ := (spans_iff hc).1 hspans
    refine ⟨m, ⟨hboundary, .inl hpos.ge, fun e' m' hp hne hboundary' => ?_⟩, hpos⟩
    have hlt := hboundary'.position_lt hboundary hp hne
    have hle := hboundary'.position_le
    have hbound := hbelow e' _ hp hne (hboundary'.spans hc)
    omega

/-- A body ends at the first boundary that reaches the declared size or the bound. -/
theorem exists_endsAt_iff_isLeast (hc : c.Reads bs) :
    (∃ locals e m, EndsAt declared c locals e m ∧ m.position = c.position + k) ↔
      IsLeast {k | IsBoundary bs c.position k ∧
        (declared.toNat ≤ k ∨ c.bound ≤ c.position + k)} k := by
  constructor
  · intro h
    obtain ⟨locals, e, m, hends, hpos⟩ := h
    have hstops := hends.stops
    refine ⟨⟨⟨locals, e, (spans_iff hc).2 ⟨m, hends.boundary, hpos⟩⟩, by omega⟩, fun k' hk' => ?_⟩
    obtain ⟨⟨locals', e', hspans⟩, hstops'⟩ := hk'
    obtain ⟨m', hboundary, hpos'⟩ := (spans_iff hc).1 hspans
    obtain ⟨rfl, -⟩ := hends.boundary.exists_common hboundary
    -- An earlier boundary lies on the way to `m`, and there the loop goes on.
    by_contra hlt
    obtain ⟨hp, hne⟩ := hboundary.prefix_of_position_lt hends.boundary (by omega)
    have hgo := hends.goes_on e' m' hp hne hboundary
    omega
  · intro h
    obtain ⟨⟨⟨locals, e, hspans⟩, hstops⟩, hleast⟩ := h
    obtain ⟨m, hboundary, hpos⟩ := (spans_iff hc).1 hspans
    refine ⟨locals, e, m, ⟨hboundary, by omega, fun e' m' hp hne hboundary' => ?_⟩, hpos⟩
    have hlt := hboundary'.position_lt hboundary hp hne
    have hle := hboundary'.position_le
    by_contra hstops'
    have hk := hleast ⟨⟨locals, e', hboundary'.spans hc⟩, by omega⟩
    omega

theorem passes_of_decode {body : Body} (h : Body.decode declared c = .ok body m) :
    ∃ xs, c.Passes xs m ∧ body.size = declared ∧ xs.length = declared.toNat := by
  obtain ⟨xs, hpass, hsize, hholds⟩ :=
    (follows_decode (E := fun _ => True) (fun _ _ => trivial) declared).sound h
  cases hholds with
  | intro _ _ hlength => exact ⟨_, hpass, hsize, hsize ▸ hlength⟩

theorem decodeWith_eq_decode {d : Decoder Instruction} {hd : Advances d}
    (h : ∀ m, m.position < c.position + declared.toNat → m.position < c.bound →
      d m = Instruction.decode m) : decodeWith d hd declared c = Body.decode declared c := by
  rw [decode_eq_decodeWith, decodeWith_apply, decodeWith_apply, bind_apply, bind_apply]
  cases hlocals : vector LocalGroup.decode c with
  | error error l => rfl
  | ok locals l =>
    dsimp only
    rw [bind_apply, bind_apply, collectWhile_congr fun e m hsteps hmore => ?_]
    have hboundary : Boundary c locals e m := ⟨l, hlocals, hsteps⟩
    obtain ⟨hsize, hbound⟩ := hboundary.hasMore_iff.1 hmore
    exact h m hsize hbound

/-- How a body of `declared` bytes is read from the cursor on: exactly these bytes are decoded, and
no instruction that begins after them or in what follows the section. -/
structure TakesDeclared (bs : List UInt8) (declared : UInt32) (c : Cursor) : Prop where
  returns_iff : ∀ locals e, answerOf (Body.decode declared c) = .ok ⟨declared, locals, e⟩ ↔
    Spans bs c.position locals e declared.toNat ∧
      ∀ e' k, e' <+: e → e' ≠ e → Spans bs c.position locals e' k → c.position + k < c.bound
  mismatch_iff : ∀ k, answerOf (Body.decode declared c) =
      .error ⟨.bodySizeMismatch declared k, c.position, none⟩ ↔
    IsLeast {k | IsBoundary bs c.position k ∧ (declared.toNat ≤ k ∨ c.bound ≤ c.position + k)} k ∧
      k ≠ declared.toNat
  /-- The body has the declared size, and the cursor has moved by as much. -/
  consumes : ∀ body c', Body.decode declared c = .ok body c' →
    body.size = declared ∧ c'.Reads bs ∧ c'.position = c.position + declared.toNat
  /-- How instructions are read has no influence from the end of the declared bytes on, nor from the
  bound of the section on. -/
  unaffected : ∀ d hd, (∀ m, m.position < c.position + declared.toNat → m.position < c.bound →
      d m = Instruction.decode m) →
    decodeWith d hd declared c = Body.decode declared c

/-- Wherever a body begins, it takes the bytes that it declares and no others. -/
theorem decode_takes_declared (declared : UInt32) (hc : c.Reads bs) :
    TakesDeclared bs declared c where
  returns_iff locals e := (answer_eq_ok_iff hc).trans (endsAt_declared_iff hc)
  mismatch_iff k := by rw [answer_eq_mismatch_iff hc, exists_endsAt_iff_isLeast hc]
  consumes body c' h := by
    obtain ⟨xs, hpass, hsize, hlength⟩ := passes_of_decode h
    exact ⟨hsize, hc.passes hpass, hlength ▸ hpass.position⟩
  unaffected d hd h := decodeWith_eq_decode h

/-- After the first byte of `00 00 41 80 01 0B` stands a body without locals. If it declares three
bytes, they end within its first instruction. -/
theorem decode_takes_declared_straddled : ∃ c : Cursor, c.position = 1 ∧
    c.Reads [0x00, 0x00, 0x41, 0x80, 0x01, 0x0B] ∧
    answerOf (Body.decode 3 c) = .error ⟨.bodySizeMismatch 3 4, 1, none⟩ ∧
    IsLeast {k | IsBoundary [0x00, 0x00, 0x41, 0x80, 0x01, 0x0B] 1 k ∧ (3 ≤ k ∨ 6 ≤ 1 + k)} 4 := by
  have hreads : Cursor.Reads [0x00, 0x00, 0x41, 0x80, 0x01, 0x0B]
      ⟨[0x00, 0x41, 0x80, 0x01, 0x0B], .endOfInput, 1, 6, 6, #[]⟩ :=
    ⟨rfl, by decide, rfl, rfl⟩
  have hmismatch : answerOf (Body.decode 3
      ⟨[0x00, 0x41, 0x80, 0x01, 0x0B], .endOfInput, 1, 6, 6, #[]⟩) =
        .error ⟨.bodySizeMismatch 3 4, 1, none⟩ := by
    decide +kernel
  have hleast := ((decode_takes_declared 3 hreads).mismatch_iff 4).1 hmismatch
  exact ⟨_, rfl, hreads, hmismatch, hleast.1⟩

end Body
end WasmBinary
