import WasmBinary.Module.Decoder

/-! Properties of runs that need only be checked of the primitive decoders: what follows from the
same property of the parts of a run holds of all runs of every decoder. Only those decoders are left
out that report events. -/
namespace WasmBinary

open Decoder

def Cause.isIo : Cause → Bool
  | .io _ => true
  | _ => false


variable {α β σ : Type}

/-- A property of a decoder at a cursor, with a rule for each primitive decoder and for each way to
put decoders together. -/
structure Compositional (P : {α : Type} → Decoder α → Cursor → Prop) : Prop where
  pure {α : Type} (a : α) (c : Cursor) : P (pure a : Decoder α) c
  position (c : Cursor) : P position c
  fail {α : Type} {cause : Cause} (own : cause.isIo = false) (c : Cursor) :
    P (fail cause : Decoder α) c
  failAt {α : Type} (offset : Nat) {cause : Cause} (own : cause.isIo = false) (c : Cursor) :
    P (failAt offset cause : Decoder α) c
  byte (c : Cursor) : P byte c
  bytes (n : Nat) (c : Cursor) : P (bytes n) c
  read (n : Nat) (c : Cursor) : P (read n) c
  next (width start : Nat) (c : Cursor) : P (Leb128.next width start) c
  bindAt {α β : Type} {d : Decoder α} {f : α → Decoder β} {c : Cursor} (first : P d c)
    (rest : ∀ a m, d c = .ok a m → P (f a) m) : P (d >>= f) c
  done {α : Type} {more : Cursor → Bool} {d : Decoder α} {hd : Advances d} {c : Cursor}
    (stop : more c = false) : P (collectWhile more d hd) c
  again {α : Type} {more : Cursor → Bool} {d : Decoder α} {hd : Advances d} {c : Cursor}
    (go : more c = true) (step : P (d >>= fun a => (a :: ·) <$> collectWhile more d hd) c) :
    P (collectWhile more d hd) c

def Throughout (P : {α : Type} → Decoder α → Cursor → Prop) (d : Decoder α) : Prop :=
  ∀ c, P d c

namespace Compositional

variable {P : {α : Type} → Decoder α → Cursor → Prop} (hP : Compositional P) {d : Decoder α}

include hP

theorem bind {f : α → Decoder β} (hd : Throughout P d) (hf : ∀ a, Throughout P (f a)) :
    Throughout P (d >>= f) :=
  fun c => hP.bindAt (hd c) fun a m _ => hf a m

theorem mapAt {c : Cursor} (hd : P d c) (f : α → β) : P (f <$> d) c := by
  rw [← bind_pure_comp]
  exact hP.bindAt hd fun a m _ => hP.pure (f a) m

theorem map (hd : Throughout P d) (f : α → β) : Throughout P (f <$> d) :=
  fun c => hP.mapAt (hd c) f

theorem marker (meaning? : UInt8 → Option α) {otherwise : UInt8 → Cause}
    (own : ∀ b, (otherwise b).isIo = false) : Throughout P (marker meaning? otherwise) := by
  refine hP.bind hP.position fun offset => hP.bind hP.byte fun b => ?_
  split
  · exact hP.pure _
  · exact hP.failAt offset (own b)

theorem timesFrom {d : Nat → Decoder α} (hd : ∀ i, Throughout P (d i)) (index count : Nat)
    (items : List α) : Throughout P (timesFrom d index count items) := by
  induction count generalizing index items with
  | zero => exact hP.pure _
  | succ count ih => exact hP.bind (hd index) fun a => ih (index + 1) (a :: items)

theorem collectWhile (more : Cursor → Bool) (hd : Advances d) (h : Throughout P d) :
    Throughout P (collectWhile more d hd) := by
  intro c
  generalize hn : c.left = n
  induction n using Nat.strongRecOn generalizing c with
  | ind n ih =>
    subst hn
    cases hmore : more c with
    | false => exact hP.done hmore
    | true =>
      exact hP.again hmore (hP.bindAt (h c) fun a m ha => hP.mapAt (ih _ (hd ha) m rfl) (a :: ·))

theorem collectUntil (next? : σ → α → Option σ) (hd : Advances d) (h : Throughout P d) (s : σ) :
    Throughout P (collectUntil next? d hd s) := by
  intro c
  generalize hn : c.left = n
  induction n using Nat.strongRecOn generalizing c s with
  | ind n ih =>
    subst hn
    rw [collectUntil_eq]
    refine hP.bindAt (h c) fun a m ha => ?_
    cases next? s a with
    | none => exact hP.pure [a] m
    | some t => exact hP.mapAt (ih _ (hd ha) t m rfl) (a :: ·)

/-! ### Integers, vectors and names -/

theorem unsignedFrom (width start more bits : Nat) (b : UInt8) :
    Throughout P (Leb128.unsignedFrom width start more bits b) := by
  induction more generalizing bits b with
  | zero =>
    unfold Leb128.unsignedFrom
    split
    · exact hP.failAt start rfl
    · split
      · exact hP.pure _
      · exact hP.failAt start rfl
  | succ more ih =>
    unfold Leb128.unsignedFrom
    split
    · exact hP.failAt start rfl
    · split
      · exact hP.pure _
      · exact hP.bind (hP.next width start) fun b => hP.bind (ih (bits - 7) b) fun _ => hP.pure _

theorem signedFrom (width start more bits : Nat) (b : UInt8) :
    Throughout P (Leb128.signedFrom width start more bits b) := by
  induction more generalizing bits b with
  | zero =>
    unfold Leb128.signedFrom
    split
    · split
      · exact hP.pure _
      · exact hP.failAt start rfl
    · exact hP.failAt start rfl
  | succ more ih =>
    unfold Leb128.signedFrom
    split
    · split
      · exact hP.pure _
      · exact hP.failAt start rfl
    · exact hP.bind (hP.next width start) fun b => hP.bind (ih (bits - 7) b) fun _ => hP.pure _

theorem unsigned (width : Nat) : Throughout P (Leb128.unsigned width) :=
  hP.bind hP.position fun start => hP.bind (hP.next width start) fun b =>
    hP.unsignedFrom width start _ _ b

theorem signed (width : Nat) : Throughout P (Leb128.signed width) :=
  hP.bind hP.position fun start => hP.bind (hP.next width start) fun b =>
    hP.signedFrom width start _ _ b

theorem u32 : Throughout P Leb128.u32 :=
  hP.map (hP.unsigned 32) _

theorem i32 : Throughout P Leb128.i32 :=
  hP.map (hP.signed 32) _

theorem i64 : Throughout P Leb128.i64 :=
  hP.map (hP.signed 64) _

theorem indexedVector {d : Nat → Decoder α} (hd : ∀ i, Throughout P (d i)) :
    Throughout P (indexedVector d) :=
  hP.bind hP.u32 fun count => hP.timesFrom hd 0 count.toNat []

theorem vector (hd : Throughout P d) : Throughout P (vector d) :=
  hP.indexedVector fun _ => hd

theorem byteVector : Throughout P byteVector :=
  hP.bind hP.u32 fun count => hP.read count.toNat

theorem name : Throughout P name := by
  refine hP.bind hP.position fun offset => hP.bind hP.byteVector fun bs => ?_
  split
  · exact hP.pure _
  · exact hP.failAt offset rfl

/-! ### Types, instructions and items -/

theorem valType : Throughout P ValType.decode :=
  hP.marker _ fun _ => rfl

theorem funcType : Throughout P FuncType.decode :=
  have types := hP.vector hP.valType
  hP.bind (hP.marker _ fun _ => rfl) fun _ => hP.bind types fun _ => hP.bind types fun _ =>
    hP.pure _

theorem limits : Throughout P Limits.decode := by
  refine hP.bind (hP.marker _ fun _ => rfl) fun hasMax => hP.bind hP.u32 fun min => ?_
  split
  · exact hP.bind hP.u32 fun _ => hP.pure _
  · exact hP.pure _

theorem index {space : IndexSpace} : Throughout P (Index.decode : Decoder (Index space)) :=
  hP.map hP.u32 _

theorem blockTypeAfter (offset : Nat) (b : UInt8) :
    Throughout P (BlockType.decodeAfter offset b) := by
  unfold BlockType.decodeAfter
  split
  · exact hP.pure _
  · split
    · split
      · exact hP.pure _
      · exact hP.failAt offset rfl
    · refine hP.bind (hP.signedFrom 33 offset _ _ b) fun index => ?_
      split
      · exact hP.pure _
      · exact hP.failAt offset rfl

theorem blockType : Throughout P BlockType.decode :=
  hP.bind hP.position fun offset => hP.bind hP.byte fun b => hP.blockTypeAfter offset b

theorem immediate (s : Shape) : Throughout P (Immediate.decode s) := by
  cases s with
  | none => exact hP.pure _
  | blockType => exact hP.map hP.blockType _
  | brTable => exact hP.bind (hP.vector hP.index) fun _ => hP.bind hP.index fun _ => hP.pure _
  | callIndirect => exact hP.bind hP.index fun _ => hP.bind hP.index fun _ => hP.pure _
  | selectTypes => exact hP.map (hP.vector hP.valType) _
  | memArg => exact hP.bind hP.u32 fun _ => hP.bind hP.u32 fun _ => hP.pure _
  | i32 => exact hP.map hP.i32 _
  | i64 => exact hP.map hP.i64 _
  | f32 => exact hP.bind (hP.bytes 4) fun _ => hP.pure _
  | f64 => exact hP.bind (hP.bytes 8) fun _ => hP.pure _
  | refType => exact hP.map (hP.marker _ fun _ => rfl) _
  | _ => exact hP.map hP.index _

theorem instruction : Throughout P Instruction.decode :=
  hP.bind (hP.marker _ fun _ => rfl) fun opcode =>
    hP.bind (hP.immediate opcode.shape) fun _ => hP.pure _

theorem expr : Throughout P Expr.decode :=
  hP.collectUntil _ _ hP.instruction 0

theorem localGroup : Throughout P LocalGroup.decode :=
  hP.bind hP.u32 fun _ => hP.bind hP.valType fun _ => hP.pure _

theorem body (declared : UInt32) : Throughout P (Body.decode declared) := by
  refine hP.bind hP.position fun start => hP.bind (hP.vector hP.localGroup) fun locals =>
    hP.bind (hP.collectWhile _ _ hP.instruction) fun instructions =>
      hP.bind hP.position fun here => ?_
  dsimp only
  split
  · exact hP.pure _
  · exact hP.failAt start rfl

theorem exportItem : Throughout P Export.decode :=
  hP.bind hP.name fun _ => hP.bind (hP.marker _ fun _ => rfl) fun _ => hP.bind hP.u32 fun _ =>
    hP.pure _

private theorem failAt_bind (offset : Nat) {cause : Cause} (own : cause.isIo = false)
    (f : α → Decoder β) : Throughout P (Decoder.failAt offset cause >>= f) := by
  intro c
  refine hP.bindAt (hP.failAt offset own c) fun a m h => ?_
  cases h

theorem header : Throughout P Module.decodeHeader := by
  refine hP.bind (hP.bytes 4) fun found => ?_
  split
  · exact hP.failAt_bind 0 rfl _
  · refine hP.bind (hP.bytes 4) fun found' => ?_
    split
    · exact hP.failAt_bind 4 rfl _
    · exact hP.pure _

end Compositional
end WasmBinary
