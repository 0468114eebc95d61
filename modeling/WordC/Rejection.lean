import WordC.Node
import WordC.Text.Quoted
import WordC.Token
/-!
Why a source text is rejected.

A `Rejection` says where reading stopped and for which cause.  Its wording is a
`Diagnostic`, a record of texts and numbers that can also be built directly, and
that can be shown under the source line it points at.
-/

namespace WordC

/-- The rules of the grammar that a message can name. -/
inductive Production where
  | token
  | program
  | stmt
  | block
  | expr
  | assign
  | equality
  | relational
  | add
  | mul
  | unary
  | primary
deriving Repr, DecidableEq

namespace Production

def text : Production → Text
  | token => utf8 "token"
  | program => utf8 "program"
  | stmt => utf8 "stmt"
  | block => utf8 "block"
  | expr => utf8 "expr"
  | assign => utf8 "assign"
  | equality => utf8 "equality"
  | relational => utf8 "relational"
  | add => utf8 "add"
  | mul => utf8 "mul"
  | unary => utf8 "unary"
  | primary => utf8 "primary"

end Production

/-- What would have been accepted at a place. -/
inductive Expectation where
  | kind (k : Token.Kind)
  | statement
deriving Repr, DecidableEq

namespace Expectation

def text : Expectation → Text
  | kind k => k.text
  | statement => utf8 "statement"

/-- What an operand may start with. -/
def operand : List Expectation := [kind .number, kind .name, kind .leftParen]

end Expectation

namespace Rejection

inductive Cause where
  | unexpectedCharacter
  | unterminatedComment
  | expected (wanted : List Expectation)
  | literalOutOfRange
  | invalidTarget (target : Node)
deriving Repr, BEq

namespace Cause

/-- The remark a cause adds, empty where the expectation says it all. -/
def note : Cause → Text
  | unexpectedCharacter => utf8 "unexpected character"
  | unterminatedComment => utf8 "unterminated comment"
  | expected _ => []
  | literalOutOfRange => utf8 "integer literal out of range"
  | invalidTarget target => utf8 "invalid assignment target " ++ target.render

def wanted : Cause → List Expectation
  | unexpectedCharacter => []
  | unterminatedComment => []
  | expected wanted => wanted
  | literalOutOfRange => [.kind .number]
  | invalidTarget _ => [.kind .name]

end Cause
end Rejection

/-- Where and why reading stopped.  `trail` holds the rules being read there,
outermost first. -/
structure Rejection where
  place : Place
  near : Text
  cause : Rejection.Cause
  trail : List Production
deriving Repr, BEq

/-- The wording of a rejection. -/
structure Diagnostic where
  pos : Int
  line : Int
  column : Int
  near : Text
  expected : List Text
  productions : List Text
  note : Text
deriving Repr, DecidableEq

namespace Diagnostic

def message (d : Diagnostic) : Text :=
  utf8 "syntax error near " ++ d.near.quoted ++ utf8 " at line " ++ Text.ofInt d.line ++
    utf8 ", column " ++ Text.ofInt d.column ++
    (if d.note.isEmpty then [] else utf8 ": " ++ d.note) ++
    (if d.expected.isEmpty then [] else
      utf8 ", expected " ++ Text.join (utf8 " or ") d.expected) ++
    (if d.productions.isEmpty then [] else
      utf8 " (in " ++ Text.join (utf8 " > ") d.productions ++ utf8 ")")

/-- The rule of that name was being read. -/
def names (d : Diagnostic) (production : Text) : Bool := d.productions.contains production

/-- The source line the diagnostic points at, without carriage returns at its
end. -/
def sourceLine? (d : Diagnostic) (source : Text) : Option Text :=
  if d.line < 1 then none
  else (source.splitOn Byte.newline)[(d.line - 1).toNat]?.map (Text.dropRight Byte.carriageReturn)

def margin (d : Diagnostic) : Text := Text.ofInt d.line ++ utf8 " | "

/-- How far the caret stands from the left edge, counted in words. -/
def indent (d : Diagnostic) : Word := Int64.ofInt (d.margin.length + d.column - 1)

/-- The message under its source line with a caret at the column, or the message
alone when the source has no such line.  There is nothing to show when the caret
would stand left of the edge. -/
def show? (d : Diagnostic) (source : Text) : Option Text :=
  match d.sourceLine? source with
  | none => some d.message
  | some line =>
    if d.indent < 0 then none
    else
      some (d.margin ++ line ++ [Byte.newline] ++ Text.spaces d.indent.toInt.toNat ++ utf8 "^ " ++
        d.message)

end Diagnostic

namespace Rejection

def diagnostic (r : Rejection) : Diagnostic where
  pos := r.place.pos
  line := r.place.line
  column := r.place.column
  near := r.near
  expected := r.cause.wanted.map Expectation.text
  productions := r.trail.map Production.text
  note := r.cause.note

end Rejection
end WordC
