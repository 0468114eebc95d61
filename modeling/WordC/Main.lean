import WordC.Command.Compiler
import WordC.Command.Emulator
/-!
The program.  Its first argument names a tool, and the others are the tool's own.
-/

namespace WordC

def reasonOf : IO.Error → Files.Reason
  | .noFileOrDirectory _ _ _ => .missing
  | .inappropriateType _ code _ => if code = 21 then .isDirectory else .notDirectory
  | e => .other (utf8 (toString e))

def bytesOf (t : Text) : ByteArray := ⟨t.toArray⟩

def nameOf (path : Text) : String := (String.fromUTF8? (bytesOf path)).getD ""

/-- Carries an action out on the files of the machine.  A directory can be
opened, and only fails to be read. -/
def Action.perform {α : Type} : Action α → IO α
  | done a => pure a
  | read path next => do
    match ← (IO.FS.readBinFile (nameOf path)).toBaseIO with
    | .ok content => (next (.ok content.data.toList)).perform
    | .error e =>
      let reason := reasonOf e
      let access : Files.Access := if reason = .isDirectory then .reading else .opening
      (next (.error ⟨access, path, reason⟩)).perform
  | write path content next => do
    match ← (IO.FS.writeBinFile (nameOf path) (bytesOf content)).toBaseIO with
    | .ok () => (next (.ok ())).perform
    | .error e => (next (.error ⟨.opening, path, reasonOf e⟩)).perform

/-- Prints a reply and gives its exit code. -/
def Reply.deliver (r : Reply) : IO UInt32 := do
  (← IO.getStderr).write (bytesOf r.errors)
  (← IO.getStdout).write (bytesOf r.output)
  (← IO.getStdout).flush
  return r.code.toUInt32

def unknownTool : Reply :=
  ⟨2, [], Command.line (utf8 "the first argument is minicc or emulator")⟩

end WordC

def main (arguments : List String) : IO UInt32 := do
  let texts := arguments.tail.map WordC.utf8
  match arguments.head? with
  | some "minicc" => (← (WordC.Compiler.command texts).perform).deliver
  | some "emulator" => (← (WordC.Emulator.command texts).perform).deliver
  | _ => WordC.unknownTool.deliver
