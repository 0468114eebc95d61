import WordC.Codegen
import WordC.Parser.Statement
/-!
Compiling source text to assembly text.

Every compilation starts from an empty frame and from branch number zero, so the
result depends on the source and the settings alone.
-/

namespace WordC

inductive CompileError where
  | rejected (r : Rejection)
  | settings (p : Settings.Problem)
  | failed (f : Codegen.Failure)
deriving Repr, BEq

namespace CompileError

def message : CompileError → Text
  | rejected r => r.diagnostic.message
  | settings p => p.message
  | failed f => f.message

end CompileError

/-- What is worth recording while a source is compiled. -/
inductive CompileEvent where
  | parsing (bytes : Nat)
  | generating (statements : Nat)
  | codegen (e : Codegen.Event)
deriving Repr, DecidableEq

namespace Program

/-- Generates the assembly of a program under completed settings, with what
happened on the way. -/
def generateRecorded (program : Program) (settings : Settings) :
    List CompileEvent × Except CompileError Text :=
  let settings := settings.withDefaults
  match settings.problem? with
  | some p => ([], .error (.settings p))
  | none =>
    match Codegen.run settings program with
    | .ok code s => (s.events.reverse.map .codegen, .ok (Asm.render code))
    | .error f s => (s.events.reverse.map .codegen, .error (.failed f))

/-- The assembly of a program. -/
def generate (program : Program) (settings : Settings) : Except CompileError Text :=
  (generateRecorded program settings).2

end Program

/-- Compiles a source, with what happened on the way. -/
def compileRecorded (source : Text) (settings : Settings) :
    List CompileEvent × Except CompileError Text :=
  match Program.parse source with
  | .error r => ([.parsing source.length], .error (.rejected r))
  | .ok program =>
    let (events, result) := program.generateRecorded settings
    (.parsing source.length :: .generating program.length :: events, result)

/-- The assembly of a source text. -/
def compile (source : Text) (settings : Settings) : Except CompileError Text :=
  (compileRecorded source settings).2

end WordC
