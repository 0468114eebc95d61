import WordC.Asm.Image
import WordC.Machine.Stack
/-!
The machine that executes assembly.

An instruction that fails leaves the changes it made before failing: a `pop`
moves the stack pointer before it finds that its operand cannot be written.  The
flags are the two operands of the last `cmp`, and the program counter is any
integer, since a return takes it from the stack.
-/

namespace WordC
namespace Machine

open Asm

structure Registers where
  rax : Word
  rbx : Word
  rcx : Word
  rdx : Word
  rsi : Word
  rdi : Word
  rbp : Word
  rsp : Word
  /-- Registers outside the language that have been written. -/
  others : List (Text × Word)
deriving Repr, DecidableEq

namespace Registers

def zero : Registers := ⟨0, 0, 0, 0, 0, 0, 0, 0, []⟩

/-- The stored value of a register.  Nothing is ever stored under `al`. -/
def get (r : Registers) : Register → Word
  | .rax => r.rax
  | .rbx => r.rbx
  | .rcx => r.rcx
  | .rdx => r.rdx
  | .rsi => r.rsi
  | .rdi => r.rdi
  | .rbp => r.rbp
  | .rsp => r.rsp
  | .al => 0
  | .other name => (r.others.lookup name).getD 0

/-- What an instruction reads from a register: `al` is the low byte of `rax`. -/
def read (r : Registers) : Register → Word
  | .al => r.rax &&& 0xff
  | name => r.get name

/-- Writing `al` leaves the rest of `rax` alone. -/
def write (r : Registers) (name : Register) (value : Word) : Registers :=
  match name with
  | .rax => { r with rax := value }
  | .rbx => { r with rbx := value }
  | .rcx => { r with rcx := value }
  | .rdx => { r with rdx := value }
  | .rsi => { r with rsi := value }
  | .rdi => { r with rdi := value }
  | .rbp => { r with rbp := value }
  | .rsp => { r with rsp := value }
  | .al => { r with rax := (r.rax &&& ~~~0xff) ||| (value &&& 0xff) }
  | .other name => { r with others := (name, value) :: r.others.filter (·.1 ≠ name) }

end Registers

structure State where
  registers : Registers
  stack : Stack
  /-- The operands of the last `cmp`. -/
  flags : Option (Word × Word)
  pc : Int
  /-- The instructions executed since the last reset, a failed one included. -/
  steps : Nat

namespace State

/-- A machine that has not run yet. -/
def fresh (stack : Stack) : State := ⟨.zero, stack, none, 0, 0⟩

/-- The return address of an entry; the machine halts there. -/
def haltAddress : Word := -1

/-- The machine at the start of a run.  Registers outside the language keep
their values. -/
def reset (s : State) (pc : Int) : State where
  registers := { Registers.zero with rsp := s.stack.top, others := s.registers.others }
  stack := .zeros s.stack.size
  flags := none
  pc := pc
  steps := 0

end State

/-- Execution keeps the state on failure too. -/
abbrev Exec := EStateM Trap State

def fault {α : Type} (f : Fault) : Exec α := throw (.fault f)

def lift {α : Type} : Except Trap α → Exec α
  | .ok a => pure a
  | .error t => throw t

def load (address : Word) : Exec Word := do lift ((← get).stack.load address)

def store (address value : Word) : Exec Unit := do
  let s ← get
  match s.stack.store address value with
  | .error t => throw t
  | .ok stack => set { s with stack := stack }

def getRegister (r : Register) : Exec Word := return (← get).registers.get r

def setRegister (r : Register) (value : Word) : Exec Unit :=
  modify fun s => { s with registers := s.registers.write r value }

/-- The value of an operand. -/
def read (o : Operand) : Exec Word :=
  match o.form with
  | .register r => return (← get).registers.read r
  | .immediate value => pure value
  | .memory base offset => do load ((← getRegister base) + offset)
  | .label | .other _ => fault (.unreadable o.text)

def write (o : Operand) (value : Word) : Exec Unit :=
  match o.form with
  | .register r => setRegister r value
  | .memory base offset => do store ((← getRegister base) + offset) value
  | .immediate _ | .label | .other _ => fault (.unwritable o.text)

/-- The stack pointer moves only after the store went well. -/
def push (value : Word) : Exec Unit := do
  let rsp := (← getRegister .rsp) - 8
  store rsp value
  setRegister .rsp rsp

def pop : Exec Word := do
  let rsp ← getRegister .rsp
  let value ← load rsp
  setRegister .rsp (rsp + 8)
  return value

/-- An operand of an instruction, which may have too few. -/
def operand (i : Instruction) (index : Nat) : Exec Operand :=
  match i.operands[index]? with
  | some o => pure o
  | none => throw (.crash (.missingOperand index i.operands.length))

/-- Whether a condition holds of the last comparison. -/
def test (c : Condition) : Exec Bool := do
  match (← get).flags with
  | none => fault .flagsUnset
  | some (lhs, rhs) => return c.holds lhs rhs

def arithmetic (f : Arithmetic) (target source : Operand) : Exec Unit := do
  match target.form with
  | .register _ =>
    let lhs ← read target
    let rhs ← read source
    write target (f.apply lhs rhs)
  | _ => fault (.notARegister f.text)

/-- Divides `rdx:rax`.  Only a dividend that one word holds can be divided, and
the quotient has to fit a word too. -/
def divide (source : Operand) : Exec Unit := do
  let divisor ← read source
  let low ← getRegister .rax
  let high ← getRegister .rdx
  if divisor = 0 then fault .divisionByZero
  else if high ≠ (if low < 0 then -1 else 0) then fault .divisionOverflow
  else if low = Int64.minValue && divisor = -1 then fault .divisionOverflow
  else
    setRegister .rax (low / divisor)
    setRegister .rdx (low % divisor)

/-- The index a label stands for.  One that is not defined stands for the
start. -/
def target (image : Image) (i : Instruction) : Exec Int := do
  let o ← operand i 0
  return (image.index? o.label).getD 0

/-- Does what an instruction says, and gives the next program counter. -/
def step (image : Image) (i : Instruction) : Exec Int := do
  let next := (← get).pc + 1
  match i.op with
  | .push =>
    push (← read (← operand i 0))
    return next
  | .pop =>
    let value ← pop
    write (← operand i 0) value
    return next
  | .mov | .movzx | .movzb =>
    let value ← read (← operand i 1)
    write (← operand i 0) value
    return next
  | .arith f =>
    let dst ← operand i 0
    let src ← operand i 1
    arithmetic f dst src
    return next
  | .cqo =>
    setRegister .rdx (if (← getRegister .rax) < 0 then -1 else 0)
    return next
  | .idiv =>
    divide (← operand i 0)
    return next
  | .cmp =>
    let lhs ← read (← operand i 0)
    let rhs ← read (← operand i 1)
    modify fun s => { s with flags := some (lhs, rhs) }
    return next
  | .set c =>
    let holds ← test c
    write (← operand i 0) (if holds then 1 else 0)
    return next
  | .jmp => target image i
  | .jumpIf c =>
    if ← test c then target image i else return next
  | .ret => return (← pop).toInt
  | .unknown name => fault (.unsupported name)

/-- Executes one instruction.  The program counter moves only on success. -/
def execute (image : Image) (i : Instruction) : Exec Unit := do
  let next ← step image i
  modify fun s => { s with pc := next }

end Machine
end WordC
