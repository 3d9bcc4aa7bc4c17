import WasmBinary.Proofs.Body.Exact
import WasmBinary.Proofs.Nesting

/-! Bodies whose blocks are nested well. A body is bounded by its declared size and an expression by
the `end` of its outermost level, and where the instructions end with that `end` both come to the
same place. -/
namespace WasmBinary

open Decoder

private theorem Immediate.Encodes.eq_nil {s : Shape} {x : Immediate s} {bs : List UInt8}
    (h : x.Encodes bs) (hs : s = .none) : bs = [] := by
  cases x with
  | none => exact h
  | _ => cases hs

private theorem Instruction.position_of_isEnd {c c' : Cursor} {i : Instruction}
    (h : decode c = .ok i c') (hend : i.isEnd = true) : c'.position = c.position + 1 := by
  have hop : i.opcode = .endMark := of_decide_eq_true hend
  obtain ⟨bs, hpass, hencodes⟩ := (follows_decode (E := never)).sound h
  cases hencodes with
  | @intro os _ operands =>
    have hshape : i.opcode.shape = .none := by
      rw [hop]
      rfl
    have hnil : os = [] := operands.eq_nil hshape
    rw [hpass.position, hnil]
    rfl

namespace Body

variable {declared : UInt32} {c m : Cursor} {locals : List LocalGroup} {e : Expr} {body : Body}

theorem decode_eq_ok_iff : Body.decode declared c = .ok body m ↔ body.size = declared ∧
    EndsAt declared c body.locals body.instructions m ∧
      m.position = c.position + declared.toNat := by
  constructor
  · intro h
    rcases decode_cases declared c with ⟨error, c', -, hdecode⟩ |
      ⟨locals, e, m', error, c', -, -, -, hdecode⟩ | ⟨locals, e, m', hends⟩
    · rw [hdecode] at h
      cases h
    · rw [hdecode] at h
      cases h
    · have hle := hends.boundary.position_le
      rw [decode_of_endsAt hends, checkSize_apply] at h
      split at h
      · next hsize =>
        obtain ⟨rfl, rfl⟩ := EStateM.Result.ok.inj h
        have hconsumed : m'.position - c.position = declared.toNat := hsize
        exact ⟨rfl, hends, by omega⟩
      · cases h
  · intro h
    obtain ⟨rfl, hends, hpos⟩ := h
    have hconsumed : m.position - c.position = body.size.toNat := by omega
    rw [decode_of_endsAt hends, checkSize_apply, if_pos hconsumed]

/-- The last instruction begins before the bound, and if it is the `end` of the outermost level it
does not reach past it. -/
theorem EndsAt.position_le_bound (h : EndsAt declared c locals e m) (hclosed : e.IsClosed 0) :
    m.position ≤ c.bound := by
  obtain ⟨l, hlocals, hsteps⟩ := h.boundary
  obtain ⟨hexceeds, hproper⟩ := Expr.isClosed_iff.1 hclosed
  obtain ⟨p, i, rfl, hend, -⟩ := Expr.exists_last_end hexceeds hproper
  obtain ⟨n, hfirst, hlast⟩ := hsteps.exists_of_concat
  have hbefore := (h.goes_on p n (List.prefix_append p [i]) (by simp) ⟨l, hlocals, hfirst⟩).2
  have hone := Instruction.position_of_isEnd hlast hend
  omega

/-- Every instruction takes a byte, so none but the last ends at the declared size or at the
bound. -/
theorem endsAt_of_boundary (h : Boundary c locals e m)
    (hpos : m.position = c.position + declared.toNat) (hbound : m.position ≤ c.bound) :
    EndsAt declared c locals e m where
  boundary := h
  stops := .inl hpos.ge
  goes_on e' m' hp hne h' := by
    have hlt := h'.position_lt h hp hne
    omega

/-- A body is accepted with well-nested instructions if and only if these are an expression right
after its local groups, which ends at the declared size and not beyond the bound. -/
theorem decode_nested_iff :
    (Body.decode declared c = .ok body m ∧ body.instructions.IsClosed 0) ↔
      body.size = declared ∧ ∃ l, vector LocalGroup.decode c = .ok body.locals l ∧
        Expr.decode l = .ok body.instructions m ∧ m.position = c.position + declared.toNat ∧
        m.position ≤ c.bound := by
  constructor
  · intro h
    obtain ⟨hdecode, hclosed⟩ := h
    obtain ⟨hsize, hends, hpos⟩ := decode_eq_ok_iff.1 hdecode
    have hbound := hends.position_le_bound hclosed
    obtain ⟨l, hlocals, hsteps⟩ := hends.boundary
    have hexpr : Expr.decode l = .ok body.instructions m :=
      Expr.decode_eq_ok_iff.2 (Expr.isShortest_iff.2 ⟨hsteps, hclosed⟩)
    exact ⟨hsize, l, hlocals, hexpr, hpos, hbound⟩
  · intro h
    obtain ⟨hsize, l, hlocals, hexpr, hpos, hbound⟩ := h
    obtain ⟨hsteps, hclosed⟩ := Expr.isShortest_iff.1 (Expr.decode_eq_ok_iff.1 hexpr)
    have hends := endsAt_of_boundary ⟨l, hlocals, hsteps⟩ hpos hbound
    exact ⟨decode_eq_ok_iff.2 ⟨hsize, hends, hpos⟩, hclosed⟩

end Body
end WasmBinary
