import Mathlib.Data.List.Sort
import WasmBinary.Instruction.Text
import WasmBinary.Proofs.Format.Instruction
import WasmBinary.Proofs.Text.Token
import WasmBinary.Proofs.Utf8

/-! The text of an instruction tells which instruction it is, and the text of a function type
its parameters and results.

Operands begin with a space and no mnemonic has one, so the first space divides them. The
mnemonic names the opcode, except that `select` is written alike with and without types; these
two differ in their operands. -/
namespace WasmBinary

open Text

namespace Immediate

variable {s : Shape}

/-- The alignment of an access to memory, as the exponent that is stored. -/
def align? : Immediate s → Option UInt32
  | .memArg arg => some arg.align
  | _ => .none

theorem stops_text (x : Immediate s) : Stops (· != ' ') x.text.toList := by
  cases x with
  | block t => cases t <;> simp [text]
  | brTable targets fallback =>
    rw [text, toList_join_spaced]
    cases targets <;> simp
  | ref t => cases t <;> simp [text]
  | _ => simp [text]

private theorem block_text_inj {t u : BlockType} (h : (block t).text = (block u).text) : t = u := by
  have hlist := congrArg String.toList h
  cases t with
  | empty => cases u <;> simp [text] at hlist ⊢
  | value a =>
    cases u with
    | value b =>
      have htext := (String.append_right_inj _).1 ((String.append_left_inj _).1 h)
      rw [isToken_valType.inj a b htext]
    | _ => simp [text] at hlist
  | type i =>
    cases u with
    | type j =>
      have htext := (String.append_right_inj _).1 ((String.append_left_inj _).1 h)
      rw [isToken_index.inj i j htext]
    | _ => simp [text] at hlist

/-- The fallback is written like one more target, and is the last. -/
private theorem brTable_text_inj {targets targets' : List LabelIdx} {fallback fallback' : LabelIdx}
    (h : (brTable targets fallback).text = (brTable targets' fallback').text) :
    targets = targets' ∧ fallback = fallback' := by
  have hlist : separated [' '] Index.text (targets ++ [fallback]) ++ [] =
      separated [' '] Index.text (targets' ++ [fallback']) ++ [] := by
    rw [List.append_nil, List.append_nil, ← toList_join_spaced, ← toList_join_spaced]
    exact congrArg String.toList h
  obtain ⟨hlabels, -⟩ := isToken_index.separated_inj (by decide) (by simp) (by simp) hlist
  obtain ⟨htargets, hfallback⟩ := List.append_inj' hlabels rfl
  exact ⟨htargets, List.head_eq_of_cons_eq hfallback⟩

private theorem callIndirect_text_inj {t t' : TypeIdx} {i i' : TableIdx}
    (h : (callIndirect t i).text = (callIndirect t' i').text) : t = t' ∧ i = i' := by
  have htext : " " ++ i.text ++ " (type " ++ t.text ++ ")" =
      " " ++ i'.text ++ " (type " ++ t'.text ++ ")" := h
  have hlist := congrArg String.toList htext
  simp only [String.toList_append, List.append_assoc] at hlist
  obtain ⟨rfl, hrest⟩ := isToken_index.append_inj_after (by simp) (by simp) hlist
  obtain ⟨rfl, -⟩ := isToken_index.append_inj_after (by simp) (by simp) hrest
  exact ⟨rfl, rfl⟩

private theorem select_text_inj {ts us : List ValType} (h : (select ts).text = (select us).text) :
    ts = us := by
  have htext : " (result" ++ String.join (ts.map fun t => " " ++ t.text) ++ ")" =
      " (result" ++ String.join (us.map fun t => " " ++ t.text) ++ ")" := h
  have hlist := congrArg String.toList htext
  simp only [String.toList_append, List.append_assoc, toList_join_spaced] at hlist
  have htypes := List.append_cancel_left hlist
  exact (isToken_valType.separated_inj (by decide) (by simp) (by simp) htypes).1

private theorem memArg_text_inj {arg arg' : MemArg} (halign : arg.align.toNat ≤ 63)
    (halign' : arg'.align.toNat ≤ 63) (h : (memArg arg).text = (memArg arg').text) :
    arg = arg' := by
  have htext : " offset=" ++ toString arg.offset.toNat ++ " align=" ++
        toString (2 ^ min arg.align.toNat 63) =
      " offset=" ++ toString arg'.offset.toNat ++ " align=" ++
        toString (2 ^ min arg'.align.toNat 63) := h
  have hlist := congrArg String.toList htext
  simp only [String.toList_append, List.append_assoc] at hlist
  obtain ⟨hoffset, hrest⟩ := isToken_decimal.append_inj_after (by simp) (by simp) hlist
  have hpower := isToken_decimal.inj _ _ (String.toList_inj.1 (List.append_cancel_left hrest))
  rw [Nat.min_eq_left halign, Nat.min_eq_left halign', Nat.pow_right_inj (by decide)] at hpower
  cases arg
  cases arg'
  simpa using ⟨UInt32.toNat_inj.1 hpower, UInt32.toNat_inj.1 hoffset⟩

theorem text_inj {x y : Immediate s} (hs : s ≠ .f32 ∧ s ≠ .f64)
    (hx : ∀ a ∈ x.align?, a.toNat ≤ 63) (hy : ∀ a ∈ y.align?, a.toNat ≤ 63)
    (h : x.text = y.text) : x = y := by
  have index_inj {space : IndexSpace} {i j : Index space} (h : " " ++ i.text = " " ++ j.text) :
      i = j := isToken_index.inj i j ((String.append_right_inj " ").1 h)
  have int_inj {m n : Int} (h : " " ++ toString m = " " ++ toString n) : m = n :=
    toString_int_inj ((String.append_right_inj " ").1 h)
  cases x with
  | none => cases y with | none => rfl
  | block t => cases y with | block u => rw [block_text_inj h]
  | label i => cases y with | label j => rw [index_inj h]
  | brTable targets fallback =>
    cases y with
    | brTable targets' fallback' =>
      obtain ⟨rfl, rfl⟩ := brTable_text_inj h
      rfl
  | func i => cases y with | func j => rw [index_inj h]
  | callIndirect t i =>
    cases y with
    | callIndirect t' i' =>
      obtain ⟨rfl, rfl⟩ := callIndirect_text_inj h
      rfl
  | select ts => cases y with | select us => rw [select_text_inj h]
  | localVar i => cases y with | localVar j => rw [index_inj h]
  | globalVar i => cases y with | globalVar j => rw [index_inj h]
  | table i => cases y with | table j => rw [index_inj h]
  | memArg arg => cases y with | memArg arg' => rw [memArg_text_inj (hx _ rfl) (hy _ rfl) h]
  | memory i => cases y with | memory j => rw [index_inj h]
  | i32 m => cases y with | i32 n => rw [Int32.toInt_inj.1 (int_inj h)]
  | i64 m => cases y with | i64 n => rw [Int64.toInt_inj.1 (int_inj h)]
  | f32 => exact absurd rfl hs.1
  | f64 => exact absurd rfl hs.2
  | ref t =>
    cases y with
    | ref u =>
      cases t <;> cases u
      · rfl
      · exact absurd h (by decide : " func" ≠ " extern")
      · exact absurd h (by decide : " extern" ≠ " func")
      · rfl

end Immediate

namespace Opcode

private theorem shape_ne_float {op : Opcode} (h32 : op ≠ .f32Const) (h64 : op ≠ .f64Const) :
    op.shape ≠ .f32 ∧ op.shape ≠ .f64 := by
  have hall : ∀ op ∈ all, op ≠ .f32Const → op ≠ .f64Const → op.shape ≠ .f32 ∧ op.shape ≠ .f64 := by
    decide +kernel
  exact hall op (mem_all op) h32 h64

private theorem space_notMem_mnemonic (op : Opcode) : ' ' ∉ op.mnemonic.toList := by
  -- Looked for in the bytes, which take less to compute than the characters.
  have hall : ∀ op ∈ all, 0x20 ∉ Utf8.encoding op.mnemonic := by decide +kernel
  intro hmem
  apply hall op (mem_all op)
  rw [Utf8.encoding_eq_flatMap]
  exact List.mem_flatMap.2 ⟨' ', hmem, by decide⟩

/-- The bytes of the mnemonic as one number. -/
def mnemonicKey (op : Opcode) : Nat :=
  littleEndian (Utf8.encoding op.mnemonic)

theorem mnemonic_inj {op op' : Opcode} (hop : op ≠ .selectTyped) (hop' : op' ≠ .selectTyped)
    (h : op.mnemonic = op'.mnemonic) : op = op' := by
  -- In order of their keys, neighbours differ: far fewer comparisons than one for each pair.
  have hsorted : (((all.erase .selectTyped).map mnemonicKey).insertionSort (· ≤ ·)).IsChain
      (· < ·) := by decide +kernel
  have hdistinct : ((all.erase .selectTyped).map mnemonicKey).Nodup := by
    rw [← (List.perm_insertionSort (· ≤ ·) _).nodup_iff]
    exact (List.isChain_iff_pairwise.1 hsorted).imp Nat.ne_of_lt
  have hmem {op : Opcode} (hne : op ≠ .selectTyped) : op ∈ all.erase .selectTyped :=
    (List.mem_erase_of_ne hne).2 (mem_all op)
  have hkey : op.mnemonicKey = op'.mnemonicKey := by rw [mnemonicKey, mnemonicKey, h]
  exact List.inj_on_of_nodup_map hdistinct (hmem hop) (hmem hop') hkey

end Opcode

namespace Instruction

/-- The instructions whose texts leave nothing out. Floating-point constants are none of them, as
NaNs are written alike, and an alignment is written up to the exponent 63 only. -/
structure Legible (i : Instruction) : Prop where
  not_f32 : i.opcode ≠ .f32Const
  not_f64 : i.opcode ≠ .f64Const
  align_le : ∀ a ∈ i.immediate.align?, a.toNat ≤ 63

variable {i j : Instruction}

theorem mnemonic_eq_of_text_eq (h : i.text = j.text) :
    i.opcode.mnemonic = j.opcode.mnemonic ∧ i.immediate.text = j.immediate.text := by
  have hlist := congrArg String.toList h
  simp only [text, String.toList_append] at hlist
  have notSpace (op : Opcode) : ∀ c ∈ op.mnemonic.toList, (c != ' ') = true := by
    intro c hc
    exact bne_iff_ne.2 (fun heq => op.space_notMem_mnemonic (heq ▸ hc))
  obtain ⟨hmnemonic, hoperands⟩ := append_inj_of_stops (notSpace i.opcode) (notSpace j.opcode)
    i.immediate.stops_text j.immediate.stops_text hlist
  exact ⟨String.toList_inj.1 hmnemonic, String.toList_inj.1 hoperands⟩

/-- One `select` has no operands and the other writes its types, even if there are none. -/
theorem select_operands_ne (hi : i.opcode = .select) (hj : j.opcode = .selectTyped) :
    i.immediate.text ≠ j.immediate.text := by
  obtain ⟨op, x⟩ := i
  obtain ⟨op', y⟩ := j
  cases hi
  cases hj
  cases x with
  | none =>
    cases y with
    | select types =>
      intro h
      have htext : "" = " (result" ++ String.join (types.map fun t => " " ++ t.text) ++ ")" := h
      have hlist := congrArg String.toList htext
      simp at hlist

theorem opcode_eq_of_text_eq (h : i.text = j.text) : i.opcode = j.opcode := by
  obtain ⟨hmnemonic, hoperands⟩ := mnemonic_eq_of_text_eq h
  have eq_select {op : Opcode} (hne : op ≠ .selectTyped)
      (heq : op.mnemonic = Opcode.selectTyped.mnemonic) : op = .select :=
    Opcode.mnemonic_inj hne (by decide) heq
  by_cases hi : i.opcode = .selectTyped
  · by_cases hj : j.opcode = .selectTyped
    · rw [hi, hj]
    · have hselect := eq_select hj (hi ▸ hmnemonic.symm)
      exact absurd hoperands.symm (select_operands_ne hselect hi)
  · by_cases hj : j.opcode = .selectTyped
    · have hselect := eq_select hi (hj ▸ hmnemonic)
      exact absurd hoperands (select_operands_ne hselect hj)
    · exact Opcode.mnemonic_inj hi hj hmnemonic

theorem eq_of_text_eq (hi : i.Legible) (hj : j.Legible) (h : i.text = j.text) : i = j := by
  have hopcode := opcode_eq_of_text_eq h
  obtain ⟨-, hoperands⟩ := mnemonic_eq_of_text_eq h
  obtain ⟨op, x⟩ := i
  obtain ⟨op', y⟩ := j
  cases hopcode
  have himmediate : x = y :=
    Immediate.text_inj (Opcode.shape_ne_float hi.not_f32 hi.not_f64) hi.align_le hj.align_le
      hoperands
  rw [himmediate]

end Instruction

theorem FuncType.eq_of_text_eq {t u : FuncType} (h : t.text = u.text) : t = u := by
  have hlist := congrArg String.toList h
  simp only [FuncType.text, String.toList_append, List.append_assoc] at hlist
  obtain ⟨hparams, harrow⟩ := listText_append_inj hlist
  have hlast := List.append_cancel_left harrow
  rw [← List.append_nil (ValType.listText t.results).toList,
    ← List.append_nil (ValType.listText u.results).toList] at hlast
  obtain ⟨hresults, -⟩ := listText_append_inj hlast
  cases t
  cases u
  simpa using ⟨hparams, hresults⟩

/-- No two legible instructions have the same text, and no two function types. Operands are of
the shape that the opcode calls for by their type. -/
theorem text_unambiguous :
    (∀ i j : Instruction, i.Legible → j.Legible → i.text = j.text → i = j) ∧
      ∀ t u : FuncType, t.text = u.text → t.params = u.params ∧ t.results = u.results := by
  refine ⟨fun i j hi hj h => Instruction.eq_of_text_eq hi hj h, fun t u h => ?_⟩
  rw [FuncType.eq_of_text_eq h]
  exact ⟨rfl, rfl⟩

/-- `select` and `select (result)`; and a type that moves over the arrow. -/
theorem text_unambiguous_select :
    (⟨.select, .none⟩ : Instruction).Legible ∧
      (⟨.selectTyped, .select []⟩ : Instruction).Legible ∧
      (⟨.select, .none⟩ : Instruction).text ≠ (⟨.selectTyped, .select []⟩ : Instruction).text ∧
      (⟨[.i32], []⟩ : FuncType).text ≠ (⟨[], [.i32]⟩ : FuncType).text := by
  have hselect : (⟨.select, .none⟩ : Instruction).Legible :=
    ⟨by decide, by decide, by simp [Immediate.align?]⟩
  have htyped : (⟨.selectTyped, .select []⟩ : Instruction).Legible :=
    ⟨by decide, by decide, by simp [Immediate.align?]⟩
  refine ⟨hselect, htyped, fun h => ?_, fun h => ?_⟩
  · exact absurd (text_unambiguous.1 _ _ hselect htyped h) (by decide)
  · exact absurd (text_unambiguous.2 _ _ h) (by decide)

end WasmBinary
