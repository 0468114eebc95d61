import WordC.Text.Number
/-!
Programs as trees.

Statements and expressions share one type of node: an expression is a statement
by itself, and the remaining statements leave no value.  The type does not keep
statements out of value positions, since such trees can be printed and handed to
the code generator, which refuses them by name.
-/

namespace WordC

inductive Operator where
  | add
  | sub
  | mul
  | div
  | less
  | lessEqual
  | greater
  | greaterEqual
  | equal
  | notEqual
  | assign
  /-- A number that no operator has. -/
  | unknown (code : Int)
deriving Repr, DecidableEq

namespace Operator

/-- The known operators in the order they are numbered. -/
def all : List Operator :=
  [add, sub, mul, div, less, lessEqual, greater, greaterEqual, equal, notEqual, assign]

def ofCode (n : Int) : Operator :=
  match if n < 0 then none else all[n.toNat]? with
  | some op => op
  | none => unknown n

def code : Operator → Int
  | unknown n => n
  | op => all.idxOf op

def text : Operator → Text
  | add => utf8 "+"
  | sub => utf8 "-"
  | mul => utf8 "*"
  | div => utf8 "/"
  | less => utf8 "<"
  | lessEqual => utf8 "<="
  | greater => utf8 ">"
  | greaterEqual => utf8 ">="
  | equal => utf8 "=="
  | notEqual => utf8 "!="
  | assign => utf8 "="
  | unknown n => utf8 "OperatorKind(" ++ Text.ofInt n ++ utf8 ")"

/-- The operators whose result is zero or one. -/
def isComparison : Operator → Bool
  | less | lessEqual | greater | greaterEqual | equal | notEqual => true
  | _ => false

end Operator

inductive Node where
  | num (value : Word)
  | ident (name : Text)
  | binary (op : Operator) (left right : Node)
  | ret (value : Node)
  | cond (test yes : Node) (no : Option Node)
  | loop (test body : Node)
  | iter (init test step : Option Node) (body : Node)
  | block (body : List Node)
deriving Repr, BEq, Inhabited

/-- A program is the list of its top-level statements. -/
abbrev Program := List Node

namespace Node

/-- The nodes that leave a value. -/
def isExpression : Node → Bool
  | num _ | ident _ | binary _ _ _ => true
  | _ => false

/-- The text of a node where a statement stands: an expression gets its
semicolon. -/
def closed (n : Node) (text : Text) : Text :=
  if n.isExpression then text ++ [Byte.semicolon] else text

mutual

/-- The source form of a node, with every operation in parentheses. -/
def render : Node → Text
  | num value => Text.ofWord value
  | ident name => name
  | binary op left right =>
    utf8 "(" ++ render left ++ utf8 " " ++ op.text ++ utf8 " " ++ render right ++ utf8 ")"
  | ret value => utf8 "return " ++ render value ++ utf8 ";"
  | cond test yes no =>
    utf8 "if (" ++ render test ++ utf8 ") " ++ yes.closed (render yes) ++
      match no with
      | none => []
      | some n => utf8 " else " ++ n.closed (render n)
  | loop test body => utf8 "while (" ++ render test ++ utf8 ") " ++ body.closed (render body)
  | iter init test step body =>
    utf8 "for (" ++ renderClause init ++ utf8 "; " ++ renderClause test ++ utf8 "; " ++
      renderClause step ++ utf8 ") " ++ body.closed (render body)
  | block body => [Byte.leftBrace, Byte.space] ++ renderAll body ++ [Byte.rightBrace]

/-- An omitted clause of a `for` has no text. -/
def renderClause : Option Node → Text
  | none => []
  | some n => render n

/-- Statements, each followed by a space. -/
def renderAll : List Node → Text
  | [] => []
  | n :: rest => n.closed (render n) ++ [Byte.space] ++ renderAll rest

end

def renderStatement (n : Node) : Text := n.closed n.render

end Node

namespace Program

/-- One statement on each line. -/
def render (p : Program) : Text := Text.join [Byte.newline] (p.map Node.renderStatement)

end Program
end WordC
