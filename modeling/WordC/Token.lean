import WordC.Text.Number
/-!
Tokens of the source language and their places.

A token list never contains the end of the input.  The end is a place of its
own, kept beside the tokens in `Tokens`, so that no reader of a token list can
run past it.
-/

namespace WordC

/-- A place in a source text: the bytes before it, and the line and column a
reader would count, both from one. -/
structure Place where
  pos : Nat
  line : Nat
  column : Nat
deriving Repr, DecidableEq

namespace Place

def start : Place := ⟨0, 1, 1⟩

/-- The place after one byte. -/
def next (p : Place) (b : UInt8) : Place :=
  if b = Byte.newline then ⟨p.pos + 1, p.line + 1, 1⟩ else ⟨p.pos + 1, p.line, p.column + 1⟩

/-- The place after a text. -/
def after (p : Place) (t : Text) : Place := t.foldl next p

theorem after_nil (p : Place) : p.after [] = p := rfl

theorem after_cons (p : Place) (b : UInt8) (t : Text) : p.after (b :: t) = (p.next b).after t := rfl

theorem after_append (p : Place) (s t : Text) : p.after (s ++ t) = (p.after s).after t := by
  simp [after]

theorem pos_next (p : Place) (b : UInt8) : (p.next b).pos = p.pos + 1 := by
  unfold next
  split <;> rfl

theorem pos_after (p : Place) (t : Text) : (p.after t).pos = p.pos + t.length := by
  induction t generalizing p with
  | nil => rfl
  | cons b t ih =>
    rw [after_cons, ih, pos_next, List.length_cons]
    omega

end Place

namespace Token

/-- What a token is, in the order the kinds are numbered. -/
inductive Kind where
  | number
  | name
  | returnWord
  | ifWord
  | elseWord
  | whileWord
  | forWord
  | leftParen
  | rightParen
  | leftBrace
  | rightBrace
  | semicolon
  | plus
  | minus
  | star
  | slash
  | assign
  | equal
  | notEqual
  | less
  | lessEqual
  | greater
  | greaterEqual
deriving Repr, DecidableEq

namespace Kind

def all : List Kind :=
  [number, name, returnWord, ifWord, elseWord, whileWord, forWord, leftParen, rightParen, leftBrace,
    rightBrace, semicolon, plus, minus, star, slash, assign, equal, notEqual, less, lessEqual,
    greater, greaterEqual]

/-- How a message names the kind: symbols and keywords by their spelling. -/
def text : Kind → Text
  | number => utf8 "number"
  | name => utf8 "identifier"
  | returnWord => utf8 "return"
  | ifWord => utf8 "if"
  | elseWord => utf8 "else"
  | whileWord => utf8 "while"
  | forWord => utf8 "for"
  | leftParen => utf8 "("
  | rightParen => utf8 ")"
  | leftBrace => [Byte.leftBrace]
  | rightBrace => [Byte.rightBrace]
  | semicolon => utf8 ";"
  | plus => utf8 "+"
  | minus => utf8 "-"
  | star => utf8 "*"
  | slash => utf8 "/"
  | assign => utf8 "="
  | equal => utf8 "=="
  | notEqual => utf8 "!="
  | less => utf8 "<"
  | lessEqual => utf8 "<="
  | greater => utf8 ">"
  | greaterEqual => utf8 ">="

/-- The number of a kind. -/
def code (k : Kind) : Nat := all.idxOf k

end Kind

/-- How a message names the end of the input. -/
def endText : Text := utf8 "EOF"

/-- The end of the input is numbered after the last kind. -/
def endCode : Nat := Kind.all.length

/-- The name that belongs to a number, whether or not a kind has it. -/
def nameOfCode (n : Int) : Text :=
  if n = endCode then endText
  else
    match if n < 0 then none else Kind.all[n.toNat]? with
    | some k => k.text
    | none => utf8 "TokenType(" ++ Text.ofInt n ++ utf8 ")"

end Token

structure Token where
  kind : Token.Kind
  content : Text
  place : Place
deriving Repr, DecidableEq

/-- A scanned source: its tokens and the place of its end. -/
structure Tokens where
  body : List Token
  ending : Place
deriving Repr, DecidableEq

end WordC
