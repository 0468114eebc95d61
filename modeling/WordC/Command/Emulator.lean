import WordC.Asm.Reader
import WordC.Command.Flag
import WordC.Command.Log
import WordC.Machine.Run
import WordC.Machine.View
/-!
The machine's command line.
-/

namespace WordC
namespace Emulator

structure Options where
  input : Text
  entry : Text
  limit : Word
  verbose : Bool

def standard : Options :=
  ⟨utf8 "./output.s", utf8 "main", Int64.ofInt Machine.standardLimit, false⟩

def tool : Text := utf8 "emulator"

def flags : List (Flag Options) :=
  [⟨utf8 "entry", utf8 "the function to run",
      .text standard.entry fun t o => { o with entry := t }⟩,
    ⟨utf8 "i", utf8 "the input assembly file path",
      .text standard.input fun t o => { o with input := t }⟩,
    ⟨utf8 "max_steps", utf8 "the number of instructions after which the run is aborted",
      .number standard.limit fun w o => { o with limit := w }⟩,
    ⟨utf8 "v", utf8 "whether trace every instruction and print the final machine state",
      .switch fun b o => { o with verbose := b }⟩]

/-- An executed instruction. -/
def logLine (image : Asm.Image) (pc : Int) : Text :=
  match image.fetch? pc with
  | some p =>
    Log.line .debug (utf8 "emulator: step")
      [(utf8 "pc", Text.ofInt pc), (utf8 "line", Text.ofInt p.line),
        (utf8 "inst", p.instruction.text)]
  | none => []

/-- What is printed when a file cannot be opened, or not be read once it is
open. -/
def unreadable (path : Text) (f : Files.Fault) : Text :=
  match f.access with
  | .opening =>
    Command.line (utf8 "failed to open file: " ++ path ++ utf8 ", err: " ++ f.message)
  | .reading => Command.line (utf8 "failed to parse file, err: " ++ f.message)

def work (o : Options) : Command Reply := do
  let source ← Command.orFail (unreadable o.input) (Action.readFile o.input)
  let image ← Command.orFail
    (fun (e : Asm.ReadError) => Command.line (utf8 "failed to parse file, err: " ++ e.message))
    (pure (Asm.Image.parse source))
  let fresh := Machine.State.fresh (.zeros Machine.standardStackSize.toInt.toNat)
  let r := Machine.run image o.limit.toInt o.entry fresh
  let logged :=
    if o.verbose then r.trace.flatMap (logLine image) ++ Command.line (Machine.view r.state) else []
  match r.outcome with
  | .returned value => return ⟨0, Command.line (Text.ofWord value), logged⟩
  | outcome =>
    Command.fail (logged ++
      Command.line (utf8 "failed to run " ++ o.entry ++ utf8 ", err: " ++ outcome.message))

/-- Runs an assembly file as the arguments say. -/
def command (arguments : List Text) : Action Reply :=
  Command.reply (Flag.options tool flags standard arguments >>= work)

end Emulator
end WordC
