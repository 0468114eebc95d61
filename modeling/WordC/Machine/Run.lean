import WordC.Machine
import WordC.Text.Quoted
/-!
Runs of the machine.

A run resets the machine, calls an entry and goes on until the entry returns,
an instruction fails, the program counter leaves the image or the limit is
reached.  It recurses on the instructions that are still allowed, so every run
ends.
-/

namespace WordC
namespace Machine

open Asm

/-- How a run ends. -/
inductive Outcome where
  /-- The entry returned with this value in `rax`. -/
  | returned (value : Word)
  | undefinedEntry (entry : Text)
  /-- The return address did not fit the stack. -/
  | noRoom (f : Fault)
  | ranOff (pc : Int)
  | faulted (pc : Int) (placed : Placed) (f : Fault)
  | crashed (c : Crash)
deriving Repr, DecidableEq

namespace Outcome

/-- The wording of an outcome that is not a value. -/
def message : Outcome → Text
  | returned _ => []
  | undefinedEntry entry => utf8 "asm: entry symbol " ++ entry ++ utf8 " is not defined"
  | noRoom f => f.message
  | ranOff pc => utf8 "asm: pc " ++ Text.ofInt pc ++ utf8 " ran off the program"
  | faulted _ placed f =>
    utf8 "asm: line " ++ Text.ofInt placed.line ++ utf8 ", " ++ placed.instruction.text.quoted ++
      utf8 ": " ++ f.message
  | crashed c => c.message

end Outcome

/-- What a run leaves behind. -/
structure Report where
  outcome : Outcome
  state : State
  /-- The program counters of the executed instructions, newest first. -/
  trail : List Int

/-- An executed instruction as a trace shows it. -/
def traceLine (image : Image) (pc : Int) : Text :=
  match image.fetch? pc with
  | some p =>
    Text.ofInt pc ++ utf8 ":" ++ Text.ofInt p.line ++ utf8 ": " ++ p.instruction.text
  | none => []

namespace Report

/-- The program counters in the order of execution. -/
def trace (r : Report) : List Int := r.trail.reverse

end Report

/-- Runs at most `allowed` instructions. -/
def loop (image : Image) : Nat → List Int → State → Report
  | allowed, trail, s =>
    if s.pc = State.haltAddress.toInt then ⟨.returned s.registers.rax, s, trail⟩
    else
      match image.fetch? s.pc with
      | none => ⟨.ranOff s.pc, s, trail⟩
      | some p =>
        match allowed with
        | 0 => ⟨.faulted s.pc p .stepLimit, s, trail⟩
        | allowed + 1 =>
          match execute image p.instruction { s with steps := s.steps + 1 } with
          | .ok () s' => loop image allowed (s.pc :: trail) s'
          | .error (.fault f) s' => ⟨.faulted s.pc p f, s', s.pc :: trail⟩
          | .error (.crash c) s' => ⟨.crashed c, s', s.pc :: trail⟩

/-- Calls an entry.  One that is not defined changes nothing. -/
def run (image : Image) (limit : Int) (entry : Text) (s : State) : Report :=
  match image.index? entry with
  | none => ⟨.undefinedEntry entry, s, []⟩
  | some pc =>
    match push State.haltAddress (s.reset pc) with
    | .error (.fault f) s => ⟨.noRoom f, s, []⟩
    | .error (.crash c) s => ⟨.crashed c, s, []⟩
    | .ok () s => loop image limit.toNat [] s

/-- The limit where none is given. -/
def standardLimit : Int := 1000000

/-- The stack size where none is given. -/
def standardStackSize : Word := 65536

end Machine
end WordC
