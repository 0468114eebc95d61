import WordC.Command.Flag
import WordC.Command.Log
import WordC.Compile.Source
import WordC.Settings.Load
/-!
The compiler's command line.
-/

namespace WordC
namespace Compiler

structure Options where
  /-- The file to compile, unless a source is given. -/
  path : Text
  source : Text
  /-- The file to write, the printed output if empty. -/
  output : Text
  settings : Text
  dump : Bool
  verbose : Bool

def standard : Options := ⟨[], [], [], [], false, false⟩

def tool : Text := utf8 "minicc"

def flags : List (Flag Options) :=
  [⟨utf8 "config", utf8 "an optional yaml config file",
      .text [] fun t o => { o with settings := t }⟩,
    ⟨utf8 "dump_ast", utf8 "whether print the ast to stderr before generating code",
      .switch fun b o => { o with dump := b }⟩,
    ⟨utf8 "e", utf8 "compile this source text instead of -path",
      .text [] fun t o => { o with source := t }⟩,
    ⟨utf8 "o", utf8 "the output assembly file path, stdout when empty",
      .text [] fun t o => { o with output := t }⟩,
    ⟨utf8 "path", utf8 "the path of the source file needs to be compiled",
      .text [] fun t o => { o with path := t }⟩,
    ⟨utf8 "v", utf8 "whether print debug logs", .switch fun b o => { o with verbose := b }⟩]

def logLine : CompileEvent → Text
  | .parsing bytes =>
    Log.line .debug (utf8 "compiler: start parser") [(utf8 "bytes", Text.ofNat bytes)]
  | .generating statements =>
    Log.line .debug (utf8 "compiler: start generate codes")
      [(utf8 "statements", Text.ofNat statements)]
  | .codegen (.slotAssigned name slot) =>
    Log.line .trace (utf8 "symbol table: assign slot")
      [(utf8 "name", name), (utf8 "slot", Text.ofNat slot)]
  | .codegen (.branchNumbered n) =>
    Log.line .trace (utf8 "label allocator: next") [(utf8 "id", Text.ofNat n)]
  | .codegen (.finished names branches) =>
    Log.line .trace (utf8 "code generator: done")
      [(utf8 "identifiers", Text.ofNat names), (utf8 "labels", Text.ofNat branches)]

def errorLine (message : Text) : Text := Command.line (utf8 "Error: " ++ message)

def givenSource (o : Options) : Command Text :=
  if !o.source.isEmpty then return o.source
  else if o.path.isEmpty then Command.fail (errorLine (utf8 "either -path or -e is required"))
  else Command.orFail (fun e => errorLine e.message) (readSource o.path)

def givenSettings (o : Options) : Command Settings :=
  if o.settings.isEmpty then return .standard
  else Command.orFail (fun e => errorLine e.message) (Settings.load o.settings)

/-- A program as text, and once more with its type around it. -/
def dumped (source : Text) : Text :=
  match Program.parse source with
  | .error _ => []
  | .ok program =>
    Command.line program.render ++
      Command.line (utf8 "(*internal.Program)(0x0)(" ++ program.render ++ utf8 ")")

/-- What is printed when a source does not compile. -/
def report (source : Text) : CompileError → Text
  | .rejected r => Command.line ((r.diagnostic.show? source).getD [])
  | e => errorLine e.message

def work (o : Options) : Command Reply := do
  let source ← givenSource o
  let settings ← givenSettings o
  let (events, result) := compileRecorded source settings
  let dump := if o.dump then dumped source else []
  let logged := dump ++ if o.verbose then events.flatMap logLine else []
  match result with
  | .error e => Command.fail (logged ++ report source e)
  | .ok code =>
    if o.output.isEmpty then return ⟨0, code, logged⟩
    else
      let report (f : Files.Fault) : Text :=
        logged ++ errorLine (utf8 "create output " ++ o.output ++ utf8 ": " ++ f.message)
      Command.orFail report (Action.writeFile o.output code)
      return ⟨0, [], logged⟩

/-- Compiles as the arguments say. -/
def command (arguments : List Text) : Action Reply :=
  Command.reply (Flag.options tool flags standard arguments >>= work)

end Compiler
end WordC
