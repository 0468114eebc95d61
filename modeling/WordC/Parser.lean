import WordC.Token.Lexer
/-!
The state of a parse and the steps every rule is made of.

A `Cursor` holds the tokens not read yet and the trail of rules being read.  A
`Parser` keeps its cursor on failure too, so that what a failed rule leaves
behind can be stated.  The trail is pushed and popped by `within` alone.
-/

namespace WordC

structure Cursor where
  rest : List Token
  ending : Place
  /-- The rules being read, innermost first. -/
  trail : List Production
deriving Repr

namespace Cursor

def ofTokens (tokens : Tokens) : Cursor := ⟨tokens.body, tokens.ending, []⟩

/-- The place of the next token, or of the end. -/
def place (c : Cursor) : Place :=
  match c.rest with
  | t :: _ => t.place
  | [] => c.ending

/-- The text of the next token, or the name of the end. -/
def near (c : Cursor) : Text :=
  match c.rest with
  | t :: _ => t.content
  | [] => Token.endText

def kind? (c : Cursor) : Option Token.Kind := c.rest.head?.map (·.kind)

end Cursor

abbrev Parser := EStateM Rejection Cursor

namespace Parser

/-- Fails where the cursor `spot` stood. -/
def failAt {α : Type} (spot : Cursor) (cause : Rejection.Cause) : Parser α := fun c =>
  .error ⟨spot.place, spot.near, cause, c.trail.reverse⟩ c

/-- Fails at the next token. -/
def fail {α : Type} (cause : Rejection.Cause) : Parser α := fun c => failAt c cause c

/-- Reads a rule: its name is on the trail while it is read, and is taken off
again whether or not reading succeeds. -/
def within {α : Type} (production : Production) (rule : Parser α) : Parser α := fun c =>
  match rule { c with trail := production :: c.trail } with
  | .ok a c => .ok a { c with trail := c.trail.tail }
  | .error e c => .error e { c with trail := c.trail.tail }

/-- Steps over the next token.  There is no step past the end. -/
def advance : Parser Unit := modify fun c => { c with rest := c.rest.tail }

/-- Steps over the next token if it has the kind `k`. -/
def accept (k : Token.Kind) : Parser Bool := do
  if (← get).kind? = some k then
    advance
    return true
  else return false

/-- Steps over a token of kind `k`, or fails. -/
def expect (k : Token.Kind) : Parser Unit := do
  if !(← accept k) then fail (.expected [.kind k])

end Parser
end WordC
