import WordC.Asm
import WordC.Codegen.Branch
import WordC.Codegen.Frame
import WordC.Node
import WordC.Settings
/-!
Code for programs.

An expression leaves exactly one word on the machine stack, and a statement
leaves the stack as it found it.  The generator counts the words that the code
so far has on the stack, which is how it refuses trees that use a statement as a
value.  The code of a node is a value, a list of lines; the state holds what the
nodes share: the frame, the next branch number and the count.
-/

namespace WordC
namespace Codegen

open Asm

/-- What is worth recording while code is generated. -/
inductive Event where
  | slotAssigned (name : Text) (slot : Nat)
  | branchNumbered (n : Nat)
  | finished (names branches : Nat)
deriving Repr, DecidableEq

/-- A tree that no source text spells. -/
inductive Breach where
  | leftOver (stmt : Node) (values : Int)
  | notAValue (e : Node) (values : Int)
  | notATarget (left : Node)
  | unknownOperator (op : Operator)
  | emptyStack (r : Register)
deriving Repr, BEq

namespace Breach

def text : Breach → Text
  | leftOver stmt values =>
    utf8 "statement " ++ stmt.render ++ utf8 " left " ++ Text.ofInt values ++
      utf8 " values on the stack"
  | notAValue e values =>
    e.render ++ utf8 " is used as a value but produced " ++ Text.ofInt values ++ utf8 " values"
  | notATarget left => utf8 "assignment target " ++ left.render ++ utf8 " is not an identifier"
  | unknownOperator op => utf8 "unknown operator " ++ op.text
  | emptyStack r => utf8 "pop " ++ r.text ++ utf8 " from an empty evaluation stack"

end Breach

inductive Failure where
  /-- A bounded frame has no slot left for a name. -/
  | exhausted (name : Text) (capacity : Word)
  | breach (b : Breach)
deriving Repr, BEq

namespace Failure

def message : Failure → Text
  | exhausted name capacity =>
    utf8 "stack frame exhausted: no slot for identifier " ++ name.quoted ++
      utf8 ", frame holds " ++ Text.ofWord capacity ++ utf8 " identifiers"
  | breach b => utf8 "internal compiler error: " ++ b.text

end Failure

structure State where
  frame : Frame
  /-- The number of the next branch. -/
  branches : Nat
  /-- The words that the code so far has on the stack. -/
  depth : Nat
  /-- The greatest value of `depth` so far.  No code depends on it. -/
  peak : Nat
  /-- What has happened, newest first. -/
  events : List Event
deriving Repr

def State.initial (capacity : Word) : State := ⟨.empty capacity, 0, 0, 0, []⟩

abbrev Code := List Line

/-- A generator keeps its state on failure too. -/
abbrev Gen := EStateM Failure State

def op (m : Mnemonic) (operands : List Operand) : Line := .instruction ⟨m, operands⟩

def record (e : Event) : Gen Unit := modify fun s => { s with events := e :: s.events }

def push (operand : Operand) : Gen Code := do
  modify fun s => { s with depth := s.depth + 1, peak := max s.peak (s.depth + 1) }
  return [op .push [operand]]

def pop (r : Register) : Gen Code := do
  if (← get).depth = 0 then throw (.breach (.emptyStack r))
  modify fun s => { s with depth := s.depth - 1 }
  return [op .pop [.register r]]

def nextBranch (stem : Text) : Gen Branch := do
  let n := (← get).branches
  modify fun s => { s with branches := n + 1 }
  record (.branchNumbered n)
  return .numbered stem n

/-- The slot of a name.  Giving a new one is worth recording. -/
def slot (name : Text) : Gen Nat := do
  let frame := (← get).frame
  match frame.lookup? name with
  | none => throw (.exhausted name frame.capacity)
  | some (slot, frame') =>
    if frame.names.length < frame'.names.length then
      modify fun s => { s with frame := frame' }
      record (.slotAssigned name slot)
    return slot

/-- Leaves the address of a local in `rax`. -/
def address (name : Text) : Gen Code := do
  let slot ← slot name
  return [op .mov [.register .rax, .register .rbp],
    op (.arith .sub) [.register .rax, .immediate (Int64.ofNat (Frame.offset slot))]]

/-- `push` takes an immediate of 32 bits, extended by its sign. -/
def isShort (value : Word) : Bool := -2147483648 ≤ value && value ≤ 2147483647

/-- What an operator does to `rax` and `rdi`. -/
def operation? : Operator → Option Code
  | .add => some [op (.arith .add) [.register .rax, .register .rdi]]
  | .sub => some [op (.arith .sub) [.register .rax, .register .rdi]]
  | .mul => some [op (.arith .imul) [.register .rax, .register .rdi]]
  | .div => some [op .cqo [], op .idiv [.register .rdi]]
  | .less => some (comparison .l)
  | .lessEqual => some (comparison .le)
  | .greater => some (comparison .g)
  | .greaterEqual => some (comparison .ge)
  | .equal => some (comparison .e)
  | .notEqual => some (comparison .ne)
  | .assign | .unknown _ => none
where
  comparison (c : Condition) : Code :=
    [op .cmp [.register .rax, .register .rdi], op (.set c) [.register .al],
      op .movzx [.register .rax, .register .al]]

/-- Restores the caller's frame and returns `rax`. -/
def epilogue : Code :=
  [op .mov [.register .rsp, .register .rbp], op .pop [.register .rbp], op .ret []]

/-- The code of `e`, which must leave one value. -/
def asValue (e : Node) (gen : Gen Code) : Gen Code := do
  let before := (← get).depth
  let code ← gen
  let after := (← get).depth
  if after ≠ before + 1 then throw (.breach (.notAValue e (after - before)))
  return code

/-- The code of `stmt`, with the value it leaves, if any, moved to `rax`. -/
def asStatement (stmt : Node) (gen : Gen Code) : Gen Code := do
  let before := (← get).depth
  let code ← gen
  let after := (← get).depth
  if after = before then return code
  else if after = before + 1 then return code ++ (← pop .rax)
  else throw (.breach (.leftOver stmt (after - before)))

/-- Jumps to `label` when the value of `test` is zero. -/
def branchIfZero (test : Node) (gen : Gen Code) (label : Text) : Gen Code := do
  let code ← asValue test gen
  let popped ← pop .rax
  return code ++ popped ++
    [op .cmp [.register .rax, .immediate 0], op (.jumpIf .e) [.target label]]

mutual

/-- The code of a node. -/
def node (stem : Text) : Node → Gen Code
  | .num value => do
    if isShort value then push (.immediate value)
    else return op .mov [.register .rax, .immediate value] :: (← push (.register .rax))
  | .ident name => do
    let place ← address name
    return place ++ [op .mov [.register .rax, .memory .rax 0]] ++ (← push (.register .rax))
  | .binary .assign left right =>
    match left with
    | .ident name => do
      let place ← address name
      let held ← push (.register .rax)
      let value ← asValue right (node stem right)
      let value' ← pop .rdi
      let held' ← pop .rax
      return place ++ held ++ value ++ value' ++ held' ++
        [op .mov [.memory .rax 0, .register .rdi]] ++ (← push (.register .rdi))
    | _ => throw (.breach (.notATarget left))
  | .binary operator left right => do
    let left ← asValue left (node stem left)
    let right ← asValue right (node stem right)
    let right' ← pop .rdi
    let left' ← pop .rax
    match operation? operator with
    | none => throw (.breach (.unknownOperator operator))
    | some code => return left ++ right ++ right' ++ left' ++ code ++ (← push (.register .rax))
  | .ret value => do
    let code ← asValue value (node stem value)
    return code ++ (← pop .rax) ++ epilogue
  | .cond test yes no => do
    let branch ← nextBranch stem
    let test ← branchIfZero test (node stem test) branch.otherwise
    let yes ← asStatement yes (node stem yes)
    let no ← clause stem no
    return test ++ yes ++ [op .jmp [.target branch.finish], .label branch.otherwise] ++ no ++
      [.label branch.finish]
  | .loop test body => do
    let branch ← nextBranch stem
    let test ← branchIfZero test (node stem test) branch.finish
    let body ← asStatement body (node stem body)
    return [.label branch.start] ++ test ++ body ++
      [op .jmp [.target branch.start], .label branch.finish]
  | .iter init test step body => do
    let branch ← nextBranch stem
    let init ← clause stem init
    let test ←
      match test with
      | none => pure []
      | some test => branchIfZero test (node stem test) branch.finish
    let body ← asStatement body (node stem body)
    let step ← clause stem step
    return init ++ [.label branch.start] ++ test ++ body ++ step ++
      [op .jmp [.target branch.start], .label branch.finish]
  | .block body => statements stem body

/-- A statement that may be left out. -/
def clause (stem : Text) : Option Node → Gen Code
  | none => pure []
  | some stmt => asStatement stmt (node stem stmt)

def statements (stem : Text) : List Node → Gen Code
  | [] => pure []
  | stmt :: rest => do
    let first ← asStatement stmt (node stem stmt)
    return first ++ (← statements stem rest)

end

/-- The comment that announces a statement, on one line. -/
def announcement (stmt : Node) : Line :=
  .comment (Text.replace Byte.newline [Byte.space] stmt.renderStatement)

/-- The top-level statements, announced where comments are on. -/
def body (settings : Settings) : Program → Gen Code
  | [] => pure []
  | stmt :: rest => do
    let first ← asStatement stmt (node settings.labelStem stmt)
    let rest ← body settings rest
    return (if settings.comments then [announcement stmt] else []) ++ first ++ rest

/-- Enters the function and reserves its frame.  A frame size that wraps below
one reserves nothing. -/
def prologue (entry : Text) (frame : Frame) : Code :=
  [.intelNotation, .global entry, .label entry, op .push [.register .rbp],
    op .mov [.register .rbp, .register .rsp]] ++
    if 0 < frame.size then [op (.arith .sub) [.register .rsp, .immediate frame.size]] else []

/-- The whole function.  The frame is known only after the body, so the prologue
is made last.  An empty program returns zero. -/
def function (settings : Settings) (program : Program) : Gen Code := do
  let code ← body settings program
  let code := if program.isEmpty then [op .mov [.register .rax, .immediate 0]] else code
  let s ← get
  record (.finished s.frame.names.length s.branches)
  return prologue settings.entrySymbol s.frame ++ code ++ epilogue

/-- Generates a function in a fresh frame, and keeps the final state. -/
def run (settings : Settings) (program : Program) : EStateM.Result Failure State Code :=
  function settings program (.initial settings.frameSlots)

end Codegen
end WordC
