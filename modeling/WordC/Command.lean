import WordC.Action
/-!
What commands answer.
-/

namespace WordC

/-- The exit code of a command and what it printed. -/
structure Reply where
  code : Nat
  output : Text
  errors : Text
deriving Repr, DecidableEq

/-- The work of a command, which may end early with its reply. -/
abbrev Command := ExceptT Reply Action

namespace Command

/-- A line for the printed output. -/
def line (t : Text) : Text := t ++ [Byte.newline]

/-- Ends a command with code one. -/
def fail {α : Type} (errors : Text) : Command α := throw ⟨1, [], errors⟩

/-- Goes on with a result, or ends with what `report` says of its error. -/
def orFail {ε α : Type} (report : ε → Text) (work : Action (Except ε α)) : Command α := do
  match ← work with
  | .ok a => return a
  | .error e => fail (report e)

/-- The work of a command up to its reply. -/
def reply (c : Command Reply) : Action Reply := do
  match ← c.run with
  | .ok r => return r
  | .error r => return r

end Command
end WordC
