import WasmBinary.Module.Decoder
import WasmBinary.Module.Dump

/-! The command line: a file is decoded and a summary or a dump of its module is printed. -/
namespace WasmBinary

open Text

structure Options where
  path : String
  /-- Whether to print the whole module instead of a summary. -/
  dump : Bool
  /-- How much of the log to print. -/
  verbosity : Nat
  deriving DecidableEq, Repr

inductive UsageError where
  | missingPath
  | unexpectedArgument (arg : String)
  deriving DecidableEq, Repr

structure Output where
  code : UInt32
  stdout : String
  stderr : String
  deriving DecidableEq, Repr

def UsageError.message : UsageError → String
  | .missingPath => "error: the path of a module is required\n"
  | .unexpectedArgument arg => "error: unexpected argument '" ++ arg ++ "' found\n"

namespace Options

/-- The number of times that a group of short flags asks for more of the log. -/
def countVerbose? (arg : String) : Option Nat :=
  match arg.toList with
  | '-' :: 'v' :: vs => if vs.all (· = 'v') then some (vs.length + 1) else none
  | _ => none

/-- Takes in the arguments from left to right. -/
def parseFrom (path : Option String) (dump : Bool) (verbosity : Nat) :
    List String → Except UsageError Options
  | [] =>
    match path with
    | some path => .ok ⟨path, dump, verbosity⟩
    | none => .error .missingPath
  | arg :: args =>
    if arg = "--debug" then
      if dump then .error (.unexpectedArgument arg) else parseFrom path true verbosity args
    else if arg = "--verbose" then parseFrom path dump (verbosity + 1) args
    else
      match countVerbose? arg with
      | some n => parseFrom path dump (verbosity + n) args
      | none =>
        if path.isSome || (arg.length ≠ 1 && arg.startsWith "-") then
          .error (.unexpectedArgument arg)
        else parseFrom (some arg) dump verbosity args

def parse (args : List String) : Except UsageError Options :=
  parseFrom none false 0 args

/-- The level of the log, or `none` for no log. -/
def level? (o : Options) : Option Level :=
  match o.verbosity with
  | 0 => none
  | 1 => some .debug
  | _ => some .trace

end Options

def Level.filter (limit : Level) (events : List Event) : List Event :=
  events.filter fun e => e.level.shownAt limit

def Event.line (e : Event) : String :=
  padRight 5 e.level.name ++ " [" ++ e.topic ++ "] " ++ e.message ++ "\n"

def Export.summary (e : Export) : String :=
  "    " ++ quote e.name ++ " -> " ++ e.target.tree.inline ++ "\n"

def SectionEntry.summary (e : SectionEntry) : String :=
  let head := padRight 10 e.header.id.name ++ " offset " ++ offsetColumn e.header.offset ++
    "  size " ++ padLeft 8 ' ' (toString e.header.size.toNat) ++
    "  items " ++ padLeft 6 ' ' (toString e.payload.size) ++ "\n"
  match e.payload with
  | .exports items => head ++ String.join (items.map Export.summary)
  | _ => head

/-- The version and a line for each section, with the exports below theirs. -/
def Module.summary (m : Module) : String :=
  s!"version: {m.version.toNat}\n" ++ String.join (m.entries.map SectionEntry.summary)

namespace CommandLine

/-- A failure and the chain of what caused it. -/
def failure (context : String) (causes : List String) : String :=
  "ERROR: " ++ context ++ "\n\nCaused by:\n" ++
    String.join (causes.mapIdx fun i cause => s!"    {i}: {cause}\n")

/-- The run on an input whose file is `file`, or is missing. -/
def runOn (o : Options) (file : Option (List UInt8)) : Output :=
  match file with
  | none =>
    ⟨1, "", failure ("failed to open file `" ++ o.path ++ "`")
      ["No such file or directory (os error 2)"]⟩
  | some bytes =>
    let (result, events) := Module.ofStream (.ofBytes bytes 0)
    let log := match o.level? with
      | some limit => String.join ((limit.filter events).map Event.line)
      | none => ""
    match result with
    | .ok m => ⟨0, log ++ (if o.dump then m.tree.render ++ "\n" else m.summary), ""⟩
    | .error e =>
      ⟨1, log, failure ("failed to decode module `" ++ o.path ++ "`")
        (e.message :: e.cause.origin?.toList)⟩

/-- The run with the given arguments, where `files` looks up a file by its path. -/
def run (args : List String) (files : String → Option (List UInt8)) : Output :=
  match Options.parse args with
  | .ok o => runOn o (files o.path)
  | .error e => ⟨2, "", e.message⟩

end CommandLine
end WasmBinary
