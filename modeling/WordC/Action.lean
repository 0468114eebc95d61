import WordC.Files
/-!
Work on files as a value.

An action says which files it reads and writes, one after another, and what it
does with the answers.  It is carried out on a set of files here, and on the
files of the machine in `WordC.Main`.
-/

namespace WordC

inductive Action (α : Type) where
  | done (a : α)
  | read (path : Text) (next : Except Files.Fault Text → Action α)
  | write (path content : Text) (next : Except Files.Fault Unit → Action α)

namespace Action

def bind {α β : Type} : Action α → (α → Action β) → Action β
  | done a, f => f a
  | read path next, f => read path fun r => (next r).bind f
  | write path content next, f => write path content fun r => (next r).bind f

instance : Monad Action where
  pure := done
  bind := bind

/-- The content of a file. -/
def readFile (path : Text) : Action (Except Files.Fault Text) := read path done

/-- Writes a whole file. -/
def writeFile (path content : Text) : Action (Except Files.Fault Unit) := write path content done

/-- Carries an action out on a set of files. -/
def run {α : Type} : Action α → Files → α × Files
  | done a, fs => (a, fs)
  | read path next, fs => (next (fs.read path)).run fs
  | write path content next, fs =>
    match fs.write path content with
    | .ok after => (next (.ok ())).run after
    | .error f => (next (.error f)).run fs

@[simp]
theorem run_pure {α : Type} (a : α) (fs : Files) : (pure a : Action α).run fs = (a, fs) := rfl

theorem run_bind {α β : Type} (x : Action α) (f : α → Action β) (fs : Files) :
    (x >>= f).run fs = (f (x.run fs).1).run (x.run fs).2 := by
  change (x.bind f).run fs = _
  induction x generalizing fs with
  | done a => rfl
  | read path next ih => exact ih _ fs
  | write path content next ih =>
    simp only [bind, run]
    split
    · exact ih _ _
    · exact ih _ _

end Action
end WordC
