import WasmBinary.Main
import WasmBinary.Session
import WasmBinary.Instruction.Text
import WasmBinary.Proofs.Format.Types
import WasmBinary.Proofs.Format.Instruction
import WasmBinary.Proofs.Format.Section
import WasmBinary.Proofs.Format.Module
import WasmBinary.Proofs.Comparison.Basic
import WasmBinary.Proofs.Comparison.Decoder
import WasmBinary.Proofs.Composition
import WasmBinary.Proofs.Tiling
import WasmBinary.Proofs.SectionSize
import WasmBinary.Proofs.Diagnosis.Basic
import WasmBinary.Proofs.Diagnosis.Decoder
import WasmBinary.Proofs.Diagnosis.Module
import WasmBinary.Proofs.Truncation
import WasmBinary.Proofs.Extension
import WasmBinary.Proofs.Compositional
import WasmBinary.Proofs.Trace.Basic
import WasmBinary.Proofs.Trace.Decoder
import WasmBinary.Proofs.Trace.Session
import WasmBinary.Proofs.Stream.Answers
import WasmBinary.Proofs.Stream.Module
import WasmBinary.Proofs.Stream.Failure
import WasmBinary.Proofs.ElementCount
import WasmBinary.Proofs.Leb128.Groups
import WasmBinary.Proofs.Leb128.Exact
import WasmBinary.Proofs.Log.Basic
import WasmBinary.Proofs.Log.Section
import WasmBinary.Proofs.Log.Module
import WasmBinary.Proofs.Loop
import WasmBinary.Proofs.Body.Exact
import WasmBinary.Proofs.Body.Overrun
import WasmBinary.Proofs.Leb128.Fault
import WasmBinary.Proofs.Leb128.Word
import WasmBinary.Proofs.Nesting
import WasmBinary.Proofs.BlockType
import WasmBinary.Proofs.Body.Nested
import WasmBinary.Proofs.Name
import WasmBinary.Proofs.Text.Token
import WasmBinary.Proofs.Text.Unambiguous
import WasmBinary.Proofs.Ieee.Rounding
import WasmBinary.Proofs.Ieee.Interval
import WasmBinary.Proofs.Decimal
import WasmBinary.Proofs.Ieee.Shortest
import WasmBinary.Proofs.Ieee.Text
import WasmBinary.Proofs.Body.Locals
import WasmBinary.Proofs.Progress
