import WasmBinary.Proofs.Format.Repeat
import WasmBinary.Proofs.Leb128
import WasmBinary.Proofs.Utf8
import WasmBinary.Types.Decoder

/-! The formats of vectors, names, indices and types. -/
namespace WasmBinary

open Decoder Leb128

variable {α : Type} {E : DecodeError → Prop} {G : Format α}

namespace Format

inductive Vector (G : Format α) : Format (List α)
  | intro {ns bs : List UInt8} {as : List α} (count : Unsigned 32 ns as.length)
    (items : Each G bs as) : Vector G (ns ++ bs) as

inductive ByteVector : Format (List UInt8)
  | intro {ns bs : List UInt8} (count : Unsigned 32 ns bs.length) : ByteVector (ns ++ bs) bs

/-- The bytes of a text, after their count. -/
def Name : Format String := fun bs s =>
  ByteVector bs (Utf8.encoding s)

end Format

theorem Leb128.Unsigned.exists_u32 {ns : List UInt8} {n : Nat} (h : Unsigned 32 ns n) :
    ∃ w, U32 ns w ∧ n = w.toNat := by
  have hn : (UInt32.ofNat n).toNat = n := UInt32.toNat_ofNat_of_lt' h.upper
  exact ⟨UInt32.ofNat n, by rwa [U32, hn], hn.symm⟩

namespace Decoder

open Format

theorem follows_indexedVector {d : Nat → Decoder α} (hd : ∀ i, Follows E G (d i)) :
    Follows E (Vector G) (indexedVector d) := by
  refine (follows_u32.bind fun n => follows_times hd n.toNat).congr fun bs as => ?_
  constructor
  · intro h
    obtain ⟨count, items⟩ := h
    obtain ⟨n, hn, hlen⟩ := count.exists_u32
    exact ⟨_, _, n, rfl, hn, hlen, items⟩
  · intro h
    obtain ⟨ns, bs, n, rfl, hn, hlen, items⟩ := h
    exact .intro (hlen ▸ hn) items

theorem follows_vector {d : Decoder α} (hd : Follows E G d) : Follows E (Vector G) (vector d) :=
  follows_indexedVector fun _ => hd

theorem follows_byteVector : Follows E ByteVector byteVector := by
  refine (follows_u32.bind fun n => follows_read n.toNat).congr fun bs as => ?_
  constructor
  · intro h
    obtain ⟨count⟩ := h
    obtain ⟨n, hn, hlen⟩ := count.exists_u32
    exact ⟨_, _, n, rfl, hn, rfl, hlen⟩
  · intro h
    obtain ⟨ns, bs, n, rfl, hn, rfl, hlen⟩ := h
    exact .intro (hlen ▸ hn)

theorem follows_name : Follows E Name name := by
  refine .position fun offset => ?_
  refine (Follows.bind (H := fun bs rest s => rest = [] ∧ bs = Utf8.encoding s) follows_byteVector
    fun bs => ?_).congr fun bs s => ⟨?_, ?_⟩
  · cases h : Utf8.decode bs with
    | ok s =>
      refine (follows_pure s).congr fun rest t => ?_
      rw [← Utf8.decode_eq_ok_iff, h, Format.pure, Except.ok.injEq, eq_comm (a := s)]
    | error fault =>
      refine (follows_failAt _ _).congr fun rest t => ?_
      simp [← Utf8.decode_eq_ok_iff, h]
  · intro h
    exact ⟨bs, [], Utf8.encoding s, by simp, h, rfl, rfl⟩
  · intro h
    obtain ⟨bs, _, _, rfl, h, rfl, rfl⟩ := h
    rwa [List.append_nil]

end Decoder

theorem find?_marker_eq_some_iff {marker : α → UInt8} {all : List α}
    (hall : ∀ a, all.find? (fun x => marker x = marker a) = some a) {b : UInt8} {a : α} :
    all.find? (fun x => marker x = b) = some a ↔ marker a = b := by
  constructor
  · intro h
    simpa using List.find?_some h
  · intro h
    subst h
    exact hall a

namespace ValType

theorem ofMarker?_eq_some_iff {b : UInt8} {t : ValType} : ofMarker? b = some t ↔ t.marker = b :=
  find?_marker_eq_some_iff fun t => by cases t <;> rfl

def Encodes : Format ValType := fun bs t =>
  bs = [t.marker]

theorem follows_decode : Follows E Encodes decode := by
  refine (follows_marker _ _).congr fun bs t => ?_
  simp [Encodes, Format.marker, ofMarker?_eq_some_iff]

end ValType

inductive RefType.Encodes : Format RefType
  | func : Encodes [0x70] .func
  | external : Encodes [0x6F] .external

theorem RefType.follows_decode : Follows E RefType.Encodes RefType.decode := by
  refine (follows_marker _ _).congr fun bs t => ?_
  constructor
  · intro h
    rcases h with _ | _
    · exact ⟨0x70, rfl, rfl⟩
    · exact ⟨0x6F, rfl, rfl⟩
  · intro h
    obtain ⟨b, rfl, hb⟩ := h
    unfold RefType.ofMarker? at hb
    split at hb
    · next h =>
      obtain rfl := Option.some.inj hb
      rw [h]
      exact .func
    · split at hb
      · next h =>
        obtain rfl := Option.some.inj hb
        rw [h]
        exact .external
      · simp at hb

/-- The byte 0x60, the parameter types and the result types. -/
inductive FuncType.Encodes : Format FuncType
  | intro {ps rs : List UInt8} {t : FuncType} (params : Format.Vector ValType.Encodes ps t.params)
    (results : Format.Vector ValType.Encodes rs t.results) : Encodes (0x60 :: (ps ++ rs)) t

theorem FuncType.follows_decode : Follows E FuncType.Encodes FuncType.decode := by
  have types := follows_vector (ValType.follows_decode (E := E))
  refine ((follows_marker _ _).bind fun _ => types.bind fun params => types.bind fun results =>
    follows_pure (FuncType.mk params results)).congr fun bs t => ?_
  constructor
  · intro h
    obtain ⟨params, results⟩ := h
    exact ⟨[0x60], _, (), rfl, ⟨0x60, rfl, rfl⟩, _, _, _, rfl, params, _, [], _, by simp,
      results, rfl, rfl⟩
  · intro h
    obtain ⟨_, _, _, rfl, ⟨b, rfl, hb⟩, ps, _, params, rfl, hps, h⟩ := h
    obtain ⟨rs, _, results, rfl, hrs, rfl, rfl⟩ := h
    obtain rfl : b = 0x60 := by simpa using hb
    simpa using Encodes.intro hps hrs

/-- A byte that says whether there is a maximum, the minimum, and the maximum if there is one. -/
inductive Limits.Encodes : Format Limits
  | min {ns : List UInt8} {n : UInt32} (hn : U32 ns n) : Encodes (0x00 :: ns) ⟨n, none⟩
  | minMax {ns ms : List UInt8} {n m : UInt32} (hn : U32 ns n) (hm : U32 ms m) :
    Encodes (0x01 :: (ns ++ ms)) ⟨n, some m⟩

theorem Limits.follows_decode : Follows E Limits.Encodes Limits.decode := by
  have hmax : ∀ (hasMax : Bool) (n : UInt32), Follows E
      (fun bs (l : Limits) =>
        if hasMax then ∃ m, U32 bs m ∧ l = ⟨n, some m⟩ else bs = [] ∧ l = ⟨n, none⟩)
      (if hasMax then do return ⟨n, some (← u32)⟩ else return ⟨n, none⟩ : Decoder Limits) := by
    intro hasMax n
    cases hasMax with
    | false => exact follows_pure _
    | true =>
      refine (follows_u32.bind fun m => follows_pure (Limits.mk n (some m))).congr fun bs l => ?_
      constructor
      · intro h
        obtain ⟨m, hm, rfl⟩ := h
        exact ⟨bs, [], m, by simp, hm, rfl, rfl⟩
      · intro h
        obtain ⟨bs, _, m, rfl, hm, rfl, rfl⟩ := h
        exact ⟨m, by simpa using hm, rfl⟩
  refine ((follows_marker _ _).bind fun hasMax => follows_u32.bind fun n =>
    hmax hasMax n).congr fun bs l => ?_
  constructor
  · intro h
    rcases h with hn | ⟨hn, hm⟩
    · exact ⟨[0x00], _, false, rfl, ⟨0x00, rfl, rfl⟩, _, [], _, by simp, hn, rfl, rfl⟩
    · exact ⟨[0x01], _, true, rfl, ⟨0x01, rfl, rfl⟩, _, _, _, rfl, hn, _, hm, rfl⟩
  · intro h
    obtain ⟨_, _, hasMax, rfl, ⟨b, rfl, hb⟩, ns, ms, n, rfl, hn, h⟩ := h
    unfold Limits.hasMax? at hb
    split at hb
    · next hb0 =>
      obtain rfl := Option.some.inj hb
      obtain ⟨rfl, rfl⟩ := h
      subst hb0
      simpa using Encodes.min hn
    · split at hb
      · next hb1 =>
        obtain rfl := Option.some.inj hb
        obtain ⟨m, hm, rfl⟩ := h
        subst hb1
        simpa using Encodes.minMax hn hm
      · simp at hb

end WasmBinary
