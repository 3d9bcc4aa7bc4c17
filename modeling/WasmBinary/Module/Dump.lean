import WasmBinary.Module.Basic
import WasmBinary.Text.Quoted
import WasmBinary.Text.Tree

/-! Modules as trees, part by part. -/
namespace WasmBinary

open Text

def Index.tree {space : IndexSpace} (i : Index space) : Tree :=
  .apply space.indexName [.nat i.value.toNat]

def ValType.tree (t : ValType) : Tree :=
  .leaf t.name

def FuncType.tree (t : FuncType) : Tree :=
  .record "FunctionType"
    [.field "params" (.list (t.params.map ValType.tree)),
      .field "results" (.list (t.results.map ValType.tree))]

def Limits.tree (l : Limits) : Tree :=
  let max : Tree :=
    match l.max with
    | some n => .apply "Some" [.nat n.toNat]
    | none => .leaf "None"
  .record "MemoryLimits" [.field "min" (.nat l.min.toNat), .field "max" max]

def BlockType.tree : BlockType → Tree
  | .empty => .leaf "Empty"
  | .value t => .apply "Value" [t.tree]
  | .type i => .apply "Type" [i.tree]

def Immediate.tree {s : Shape} : Immediate s → Tree
  | .none => .leaf "None"
  | .block t => .apply "BlockType" [t.tree]
  | .label i => .apply "Label" [i.tree]
  | .brTable targets fallback =>
    .record "BrTable"
      [.field "targets" (.list (targets.map Index.tree)), .field "default" fallback.tree]
  | .func i => .apply "Func" [i.tree]
  | .callIndirect t i => .record "CallIndirect" [.field "type_idx" t.tree, .field "table" i.tree]
  | .select types => .apply "SelectTypes" [.list (types.map ValType.tree)]
  | .localVar i => .apply "Local" [i.tree]
  | .globalVar i => .apply "Global" [i.tree]
  | .table i => .apply "Table" [i.tree]
  | .memArg arg =>
    let fields : List Tree :=
      [.field "align" (.nat arg.align.toNat), .field "offset" (.nat arg.offset.toNat)]
    .apply "Memarg" [.record "Memarg" fields]
  | .memory i => .apply "Memory" [i.tree]
  | .i32 n => .apply "I32" [.leaf (toString n.toInt)]
  | .i64 n => .apply "I64" [.leaf (toString n.toInt)]
  | .f32 bits => .apply "F32" [.apply "Ieee32" [.nat bits.toNat]]
  | .f64 bits => .apply "F64" [.apply "Ieee64" [.nat bits.toNat]]
  | .ref .func => .apply "RefType" [.leaf "Func"]
  | .ref .external => .apply "RefType" [.leaf "Extern"]

def Instruction.tree (i : Instruction) : Tree :=
  .record "Instruction" [.field "opcode" (.leaf i.opcode.name), .field "immediate" i.immediate.tree]

def Expr.tree (e : Expr) : Tree :=
  .list (e.map Instruction.tree)

def ExportTarget.tree : ExportTarget → Tree
  | .function i => .apply "Function" [i.tree]
  | .memory i => .apply "Memory" [i.tree]

def Export.tree (e : Export) : Tree :=
  .record "Export" [.field "name" (.leaf (quote e.name)), .field "target" e.target.tree]

def LocalGroup.tree (g : LocalGroup) : Tree :=
  .record "Local" [.field "count" (.nat g.count.toNat), .field "t" g.type.tree]

def Body.tree (b : Body) : Tree :=
  .record "CodeBody"
    [.field "size" (.nat b.size.toNat), .field "locals" (.list (b.locals.map LocalGroup.tree)),
      .field "body" (Expr.tree b.instructions)]

def DataSegment.tree (d : DataSegment) : Tree :=
  .record "DataSegment"
    [.field "memory" d.memory.tree, .field "offset" (Expr.tree d.offset),
      .field "init" (.list (d.init.map fun b => .nat b.toNat))]

def Section.tree (s : Section) : Tree :=
  let items : List Tree :=
    match s with
    | .types items => items.map FuncType.tree
    | .functions items => items.map Index.tree
    | .memories items => items.map Limits.tree
    | .exports items => items.map Export.tree
    | .code items => items.map Body.tree
    | .data items => items.map DataSegment.tree
  .apply s.id.name [.list items]

def SectionHeader.tree (h : SectionHeader) : Tree :=
  .record "SectionHeader"
    [.field "id" (.leaf h.id.name), .field "size" (.nat h.size.toNat),
      .field "offset" (.nat h.offset)]

def Module.tree (m : Module) : Tree :=
  .record "Module"
    [.field "version" (.nat m.version.toNat),
      .field "sections" (.list (m.sections.map Section.tree)),
      .field "section_headers" (.list (m.headers.map SectionHeader.tree))]

end WasmBinary
