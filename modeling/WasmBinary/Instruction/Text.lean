import WasmBinary.Ieee.Shortest
import WasmBinary.Instruction.Basic

/-! The text of an instruction: its mnemonic and its operands. -/
namespace WasmBinary

/-- The operands, each after a space. -/
def Immediate.text {s : Shape} : Immediate s → String
  | .none => ""
  | .block .empty => ""
  | .block (.value t) => " (result " ++ t.text ++ ")"
  | .block (.type i) => " (type " ++ i.text ++ ")"
  | .label i => " " ++ i.text
  | .brTable targets fallback => String.join ((targets ++ [fallback]).map fun i => " " ++ i.text)
  | .func i => " " ++ i.text
  | .callIndirect t i => " " ++ i.text ++ " (type " ++ t.text ++ ")"
  | .select types => " (result" ++ String.join (types.map fun t => " " ++ t.text) ++ ")"
  | .localVar i => " " ++ i.text
  | .globalVar i => " " ++ i.text
  | .table i => " " ++ i.text
  | .memArg arg =>
    " offset=" ++ toString arg.offset.toNat ++ " align=" ++ toString (2 ^ min arg.align.toNat 63)
  | .memory i => " " ++ i.text
  | .i32 n => " " ++ toString n.toInt
  | .i64 n => " " ++ toString n.toInt
  | .f32 bits => " " ++ Ieee.binary32.text bits.toNat
  | .f64 bits => " " ++ Ieee.binary64.text bits.toNat
  | .ref .func => " func"
  | .ref .external => " extern"

def Instruction.text (i : Instruction) : String :=
  i.opcode.mnemonic ++ i.immediate.text

end WasmBinary
