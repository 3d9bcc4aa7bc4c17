import Mathlib.Algebra.GroupWithZero.Nat
import WasmBinary.Proofs.Format.Module

/-! The number of elements of a decoded module. Whatever counts the input announces, each element is
paid for with a byte of its own, so there are no more of them than bytes after the header. -/
namespace WasmBinary

open Leb128

/-- The targets of a branch table, or the types of a selection. -/
def Immediate.elements {s : Shape} : Immediate s → Nat
  | .brTable targets _ => targets.length
  | .select types => types.length
  | _ => 0

def Instruction.elements (i : Instruction) : Nat :=
  1 + i.immediate.elements

def Expr.elements (e : Expr) : Nat :=
  (e.map Instruction.elements).sum

def FuncType.elements (t : FuncType) : Nat :=
  1 + t.params.length + t.results.length

def Export.elements (x : Export) : Nat :=
  1 + (Utf8.encoding x.name).length

def Body.elements (b : Body) : Nat :=
  1 + b.locals.length + Expr.elements b.instructions

def DataSegment.elements (d : DataSegment) : Nat :=
  1 + Expr.elements d.offset + d.init.length

def Section.elements : Section → Nat
  | .types items => 1 + (items.map FuncType.elements).sum
  | .functions items => 1 + items.length
  | .memories items => 1 + items.length
  | .exports items => 1 + (items.map Export.elements).sum
  | .code items => 1 + (items.map Body.elements).sum
  | .data items => 1 + (items.map DataSegment.elements).sum

def Module.elements (m : Module) : Nat :=
  (m.sections.map Section.elements).sum

namespace Format

variable {α : Type} {G : Format α} {weight : α → Nat}

/-- No value weighs more than the bytes that encode it. -/
def Covers (G : Format α) (weight : α → Nat) : Prop :=
  ∀ ⦃bs a⦄, G bs a → weight a ≤ bs.length

theorem Covers.each (h : G.Covers weight) : (Each G).Covers fun as => (as.map weight).sum := by
  intro bs as has
  induction has with
  | nil => simp
  | @cons bs cs a as head _ ih =>
    have hhead : weight a ≤ bs.length := h head
    have htail : (as.map weight).sum ≤ cs.length := ih
    simp only [List.map_cons, List.sum_cons, List.length_append]
    omega

theorem covers_unsigned (width : Nat) : Covers (Unsigned width) fun _ => 1 :=
  fun _ _ h => List.length_pos_of_ne_nil h.ne_nil

/-- The count takes a byte too. -/
theorem Covers.vector (h : G.Covers weight) :
    (Vector G).Covers fun as => 1 + (as.map weight).sum := by
  intro bs as has
  cases has with
  | @intro ns bs _ count items =>
    have hcount : 1 ≤ ns.length := covers_unsigned 32 count
    have hitems : (as.map weight).sum ≤ bs.length := h.each items
    simp only [List.length_append]
    omega

theorem Covers.vector_length (h : G.Covers fun _ => 1) :
    (Vector G).Covers fun as => 1 + as.length := by
  have hvector := h.vector
  simpa using hvector

theorem covers_byteVector : ByteVector.Covers fun bytes => 1 + bytes.length := by
  intro bs bytes h
  cases h with
  | @intro ns _ count =>
    have hcount : 1 ≤ ns.length := covers_unsigned 32 count
    simp only [List.length_append]
    omega

end Format

open Format

theorem covers_u32 : Covers U32 fun _ => 1 :=
  fun _ _ h => covers_unsigned 32 h

theorem Index.covers {space : IndexSpace} : Covers (@Encodes space) fun _ => 1 :=
  fun _ _ h => covers_u32 h

theorem ValType.covers : Covers Encodes fun _ => 1 := by
  intro bs t h
  rw [h]
  simp

theorem FuncType.covers : Covers Encodes elements := by
  intro bs t h
  cases h with
  | @intro ps rs _ params results =>
    have hparams : 1 + t.params.length ≤ ps.length := ValType.covers.vector_length params
    have hresults : 1 + t.results.length ≤ rs.length := ValType.covers.vector_length results
    simp only [elements, List.length_cons, List.length_append]
    omega

theorem Limits.covers : Covers Encodes fun _ => 1 := by
  intro bs l h
  cases h <;> simp

/-- Only a vector among the operands has elements, and its own bytes pay for them. -/
theorem Immediate.elements_le {s : Shape} {bs : List UInt8} {x : Immediate s} (h : x.Encodes bs) :
    x.elements ≤ bs.length := by
  cases x with
  | brTable targets fallback =>
    obtain ⟨bs₁, bs₂, rfl, hvector, -⟩ := h
    have htargets : 1 + targets.length ≤ bs₁.length := Index.covers.vector_length hvector
    simp only [elements, List.length_append]
    omega
  | select types =>
    have htypes : 1 + types.length ≤ bs.length := ValType.covers.vector_length h
    simp only [elements]
    omega
  | _ => exact Nat.zero_le _

theorem Instruction.covers : Covers Encodes elements := by
  intro bs i h
  cases h with
  | intro operands =>
    have hoperands := Immediate.elements_le operands
    simp only [elements, List.length_cons]
    omega

theorem LocalGroup.covers : Covers Encodes fun _ => 1 := by
  intro bs g h
  cases h with
  | @intro ns ts _ count type =>
    have hcount : 1 ≤ ns.length := covers_u32 count
    simp only [List.length_append]
    omega

theorem Body.covers : Covers Encodes elements := by
  intro bs b h
  cases h with
  | @intro ns _ _ size content =>
    cases content with
    | @intro ls is _ locals instructions _ =>
      have hsize : 1 ≤ ns.length := covers_u32 size
      have hlocals : 1 + b.locals.length ≤ ls.length := LocalGroup.covers.vector_length locals
      have hinstructions : Expr.elements b.instructions ≤ is.length :=
        Instruction.covers.each instructions
      simp only [elements, List.length_append]
      omega

theorem Export.covers : Covers Encodes elements := by
  intro bs x h
  cases h with
  | @intro ns ts _ name target =>
    have hname : 1 + (Utf8.encoding x.name).length ≤ ns.length := covers_byteVector name
    simp only [elements, List.length_append]
    omega

theorem DataSegment.covers : Covers Encodes elements := by
  intro bs d h
  cases h with
  | @intro ms os is _ memory offset init =>
    have hmemory : 1 ≤ ms.length := Index.covers memory
    have hoffset : Expr.elements d.offset ≤ os.length := Instruction.covers.each offset.1
    have hinit : 1 + d.init.length ≤ is.length := covers_byteVector init
    simp only [elements, List.length_append]
    omega

namespace Section

private theorem elements_le_of_items {bs : List UInt8} {s : Section} (h : Items bs s) :
    s.elements ≤ bs.length := by
  cases s with
  | types items => exact FuncType.covers.vector h
  | functions items => exact Index.covers.vector_length h
  | memories items => exact Limits.covers.vector_length h
  | exports items => exact Export.covers.vector h
  | code items => exact Body.covers.vector h
  | data items => exact DataSegment.covers.vector h

private theorem elements_of_isEmpty {s : Section} (h : s.isEmpty = true) : s.elements = 1 := by
  have hsize : s.size = 0 := by simpa [isEmpty] using h
  cases s <;> simp_all [size, elements]

/-- The byte of the kind pays for a section that has no payload. -/
theorem covers : Covers Encodes elements := by
  intro bs s h
  cases h with
  | intro _ payload =>
    simp only [List.length_cons, List.length_append]
    rcases payload with ⟨-, hempty⟩ | hitems
    · have hone := elements_of_isEmpty hempty
      omega
    · have hle := elements_le_of_items hitems
      omega

end Section

/-- A module has no more elements than there are bytes after its header. -/
theorem Module.ofBytes_elements_le {bs : List UInt8} {m : Module} (h : ofBytes bs = .ok m) :
    m.elements + 8 ≤ bs.length := by
  obtain ⟨-, rest, rfl, hlayout⟩ := ofBytes_eq_ok_iff.1 h
  have hsections : m.elements ≤ rest.length := Section.covers.each hlayout.each
  have hlength := length_header_append rest
  omega

/-- A branch table with two targets, and a segment of three bytes: twelve elements in twenty
bytes. -/
theorem Module.ofBytes_elements_le_table :
    ∃ m, ofBytes [0, 97, 115, 109, 1, 0, 0, 0, 10, 9, 1, 7, 0, 0x0E, 2, 0, 0, 0, 0x0B,
        11, 7, 1, 0, 0x0B, 3, 1, 2, 3] = .ok m ∧ m.elements = 12 ∧ m.elements + 8 ≤ 28 := by
  have hm : ofBytes [0, 97, 115, 109, 1, 0, 0, 0, 10, 9, 1, 7, 0, 0x0E, 2, 0, 0, 0, 0x0B,
      11, 7, 1, 0, 0x0B, 3, 1, 2, 3] = .ok ⟨1,
        [⟨⟨.code, 9, 10⟩,
            .code [⟨7, [], [⟨.brTable, .brTable [⟨0⟩, ⟨0⟩] ⟨0⟩⟩, ⟨.endMark, .none⟩]⟩]⟩,
          ⟨⟨.data, 7, 21⟩, .data [⟨⟨0⟩, [⟨.endMark, .none⟩], [1, 2, 3]⟩]⟩]⟩ := by
    decide +kernel
  exact ⟨_, hm, by decide, ofBytes_elements_le hm⟩

end WasmBinary
