import WordC.Parser.Expression
/-!
The grammar of statements and programs:

    program := stmt* end
    stmt    := expr ';'
             | 'return' expr ';'
             | 'if' '(' expr ')' stmt ('else' stmt)?
             | 'while' '(' expr ')' stmt
             | 'for' '(' expr? ';' expr? ';' expr? ')' stmt
             | '{' stmt* '}'

An `else` belongs to the nearest `if` that can take it.  Bounds are those of the
expressions.
-/

namespace WordC
namespace Parser

/-- An expression and the token that ends it. -/
def expressionThen (bound : Nat) (terminator : Token.Kind) : Parser Node := do
  let e ← expression bound
  expect terminator
  return e

/-- An expression that may be left out, and the token that ends it. -/
def clause (bound : Nat) (terminator : Token.Kind) : Parser (Option Node) := do
  if ← accept terminator then return none
  else return some (← expressionThen bound terminator)

/-- A keyword and the condition in parentheses after it. -/
def condition (bound : Nat) : Parser Node := do
  advance
  expect .leftParen
  expressionThen bound .rightParen

/-- Statements up to the closing brace, which is read too. -/
def blockRest (stmt : Parser Node) : Nat → Parser (List Node)
  | 0 => fail (.expected [.kind .rightBrace, .statement])
  | bound + 1 => do
    if ← accept .rightBrace then return []
    else if (← get).rest.isEmpty then fail (.expected [.kind .rightBrace, .statement])
    else
      let first ← stmt
      let rest ← blockRest stmt bound
      return first :: rest

def statement : Nat → Parser Node
  | 0 => fail (.expected Expectation.operand)
  | bound + 1 => within .stmt do
    match (← get).kind? with
    | some .returnWord =>
      advance
      return .ret (← expressionThen (bound + 1) .semicolon)
    | some .ifWord =>
      let test ← condition (bound + 1)
      let yes ← statement bound
      if ← accept .elseWord then return .cond test yes (some (← statement bound))
      else return .cond test yes none
    | some .whileWord =>
      let test ← condition (bound + 1)
      return .loop test (← statement bound)
    | some .forWord =>
      advance
      expect .leftParen
      let init ← clause (bound + 1) .semicolon
      let test ← clause (bound + 1) .semicolon
      let step ← clause (bound + 1) .rightParen
      return .iter init test step (← statement bound)
    | some .leftBrace =>
      within .block do
        advance
        return .block (← blockRest (statement bound) bound)
    | _ => expressionThen (bound + 1) .semicolon

/-- Statements up to the end. -/
def statements (bound : Nat) : Nat → Parser (List Node)
  | 0 => pure []
  | count + 1 => do
    if (← get).rest.isEmpty then return []
    else
      let first ← statement bound
      let rest ← statements bound count
      return first :: rest

def program (bound : Nat) : Parser Program := within .program (statements bound bound)

end Parser

namespace Tokens

/-- A bound for every rule read from the start. -/
def bound (tokens : Tokens) : Nat := tokens.body.length + 1

/-- Reads a program, and keeps the cursor. -/
def readProgram (tokens : Tokens) : EStateM.Result Rejection Cursor Program :=
  Parser.program tokens.bound (.ofTokens tokens)

/-- Reads one expression from the front, and keeps the cursor. -/
def readExpression (tokens : Tokens) : EStateM.Result Rejection Cursor Node :=
  Parser.expression tokens.bound (.ofTokens tokens)

end Tokens

namespace Program

def ofTokens (tokens : Tokens) : Except Rejection Program :=
  match tokens.readProgram with
  | .ok p _ => .ok p
  | .error r _ => .error r

/-- The program that a source text spells. -/
def parse (source : Text) : Except Rejection Program :=
  match Token.scan source with
  | .error r => .error r
  | .ok tokens => ofTokens tokens

end Program
end WordC
