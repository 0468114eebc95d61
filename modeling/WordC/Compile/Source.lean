import WordC.Action
import WordC.Compile
/-!
Sources from files.
-/

namespace WordC

/-- Why a file was not compiled. -/
inductive SourceError where
  | unreadable (path : Text) (f : Files.Fault)
  | uncompiled (source : Text) (e : CompileError)
deriving Repr, BEq

def SourceError.message : SourceError → Text
  | unreadable path f => utf8 "read source " ++ path ++ utf8 ": " ++ f.message
  | uncompiled _ e => e.message

def readSource (path : Text) : Action (Except SourceError Text) := do
  match ← Action.readFile path with
  | .error f => return .error (.unreadable path f)
  | .ok source => return .ok source

/-- The assembly of a source file. -/
def compileFile (path : Text) (settings : Settings) : Action (Except SourceError Text) := do
  match ← readSource path with
  | .error e => return .error e
  | .ok source =>
    match compile source settings with
    | .error e => return .error (.uncompiled source e)
    | .ok code => return .ok code

end WordC
