import WasmBinary.CommandLine

/-! The program. -/
open WasmBinary

/-- Reads the file that the arguments name, and prints what the run leaves behind. -/
def main (args : List String) : IO UInt32 := do
  let file ← match Options.parse args with
    | .ok o =>
      try
        let data ← IO.FS.readBinFile o.path
        pure (some data.toList)
      catch _ => pure none
    | .error _ => pure none
  let output := CommandLine.run args fun _ => file
  IO.print output.stdout
  IO.eprint output.stderr
  return output.code
