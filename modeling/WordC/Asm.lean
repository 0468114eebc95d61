import WordC.Text.Number
/-!
Instructions of the assembly language.

The language is the part of x86-64 in intel notation that compiled programs use.
The compiler writes these instructions, the reader recovers them from text, and
the machine executes them, so one type serves all three.  Mnemonics, registers
and operand forms outside the language have constructors of their own: the
machine can be handed them and has to say what they do.
-/

namespace WordC
namespace Asm

inductive Register where
  | rax
  | rbx
  | rcx
  | rdx
  | rsi
  | rdi
  | rbp
  | rsp
  /-- The low byte of `rax`. -/
  | al
  | other (name : Text)
deriving Repr, DecidableEq

namespace Register

/-- The registers of a full word. -/
def wide : List Register := [rax, rbx, rcx, rdx, rsi, rdi, rbp, rsp]

def text : Register → Text
  | rax => utf8 "rax"
  | rbx => utf8 "rbx"
  | rcx => utf8 "rcx"
  | rdx => utf8 "rdx"
  | rsi => utf8 "rsi"
  | rdi => utf8 "rdi"
  | rbp => utf8 "rbp"
  | rsp => utf8 "rsp"
  | al => utf8 "al"
  | other name => name

def ofText? (t : Text) : Option Register := (wide ++ [al]).find? (·.text = t)

def ofText (t : Text) : Register := (ofText? t).getD (other t)

end Register

/-- Signed comparisons of the two operands of a `cmp`. -/
inductive Condition where
  | e
  | ne
  | l
  | le
  | g
  | ge
deriving Repr, DecidableEq

namespace Condition

def all : List Condition := [e, ne, l, le, g, ge]

def text : Condition → Text
  | e => utf8 "e"
  | ne => utf8 "ne"
  | l => utf8 "l"
  | le => utf8 "le"
  | g => utf8 "g"
  | ge => utf8 "ge"

def holds (c : Condition) (lhs rhs : Word) : Bool :=
  match c with
  | e => lhs = rhs
  | ne => lhs ≠ rhs
  | l => lhs < rhs
  | le => lhs ≤ rhs
  | g => rhs < lhs
  | ge => rhs ≤ lhs

end Condition

/-- Two-operand arithmetic, wrapping. -/
inductive Arithmetic where
  | add
  | sub
  | imul
deriving Repr, DecidableEq

namespace Arithmetic

def text : Arithmetic → Text
  | add => utf8 "add"
  | sub => utf8 "sub"
  | imul => utf8 "imul"

def apply : Arithmetic → Word → Word → Word
  | add, a, b => a + b
  | sub, a, b => a - b
  | imul, a, b => a * b

end Arithmetic

inductive Mnemonic where
  | push
  | pop
  | mov
  | movzx
  | movzb
  | arith (f : Arithmetic)
  | cqo
  | idiv
  | cmp
  | set (c : Condition)
  | jmp
  | jumpIf (c : Condition)
  | ret
  | unknown (name : Text)
deriving Repr, DecidableEq

namespace Mnemonic

/-- The mnemonics of the language. -/
def all : List Mnemonic :=
  [push, pop, mov, movzx, movzb, arith .add, arith .sub, arith .imul, cqo, idiv, cmp, jmp, ret] ++
    Condition.all.map set ++ Condition.all.map jumpIf

def text : Mnemonic → Text
  | push => utf8 "push"
  | pop => utf8 "pop"
  | mov => utf8 "mov"
  | movzx => utf8 "movzx"
  | movzb => utf8 "movzb"
  | arith f => f.text
  | cqo => utf8 "cqo"
  | idiv => utf8 "idiv"
  | cmp => utf8 "cmp"
  | set c => utf8 "set" ++ c.text
  | jmp => utf8 "jmp"
  | jumpIf c => utf8 "j" ++ c.text
  | ret => utf8 "ret"
  | unknown name => name

def ofText? (t : Text) : Option Mnemonic := all.find? (·.text = t)

def ofText (t : Text) : Mnemonic := (ofText? t).getD (unknown t)

/-- How many operands a mnemonic of the language takes. -/
def arity : Mnemonic → Nat
  | push | pop | idiv | set _ | jmp | jumpIf _ => 1
  | mov | movzx | movzb | arith _ | cmp => 2
  | cqo | ret | unknown _ => 0

def isJump : Mnemonic → Bool
  | jmp | jumpIf _ => true
  | _ => false

end Mnemonic

namespace Operand

/-- What an operand denotes when it is read or written. -/
inductive Form where
  | register (r : Register)
  | immediate (value : Word)
  | memory (base : Register) (offset : Word)
  | label
  /-- A form that no operand of the language has, by its number. -/
  | other (kind : Int)
deriving Repr, DecidableEq

end Operand

/-- An operand.  Reading and writing go by the form alone, and a jump goes by
the label alone, whatever the form. -/
structure Operand where
  form : Operand.Form
  label : Text
deriving Repr, DecidableEq

namespace Operand

def register (r : Register) : Operand := ⟨.register r, []⟩

def immediate (value : Word) : Operand := ⟨.immediate value, []⟩

def memory (base : Register) (offset : Word) : Operand := ⟨.memory base offset, []⟩

def target (name : Text) : Operand := ⟨.label, name⟩

/-- A memory operand shows its offset with a sign, unless it is zero. -/
def text (o : Operand) : Text :=
  match o.form with
  | .register r => r.text
  | .immediate value => Text.ofWord value
  | .memory base offset =>
    let shift :=
      if offset = 0 then []
      else if offset < 0 then Text.ofWord offset
      else Byte.plus :: Text.ofWord offset
    [Byte.leftBracket] ++ base.text ++ shift ++ [Byte.rightBracket]
  | .label | .other _ => o.label

end Operand

structure Instruction where
  op : Mnemonic
  operands : List Operand
deriving Repr, DecidableEq

namespace Instruction

def text (i : Instruction) : Text :=
  if i.operands.isEmpty then i.op.text
  else i.op.text ++ [Byte.space] ++ Text.join (utf8 ", ") (i.operands.map Operand.text)

end Instruction

/-- A line of an assembly file. -/
inductive Line where
  /-- The directive that chooses the notation. -/
  | intelNotation
  /-- The directive that exports a symbol. -/
  | global (name : Text)
  | label (name : Text)
  | instruction (i : Instruction)
  | comment (remark : Text)
deriving Repr, DecidableEq

namespace Line

/-- Instructions and comments are indented, and every line ends. -/
def text : Line → Text
  | intelNotation => utf8 ".intel_syntax noprefix\n"
  | global name => utf8 ".globl " ++ name ++ utf8 "\n"
  | label name => name ++ utf8 ":\n"
  | instruction i => utf8 "  " ++ i.text ++ utf8 "\n"
  | comment remark => utf8 "  # " ++ remark ++ utf8 "\n"

end Line

/-- The text of an assembly file. -/
def render (lines : List Line) : Text := lines.flatMap Line.text

end Asm
end WordC
