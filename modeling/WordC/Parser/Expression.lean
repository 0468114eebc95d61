import WordC.Parser
/-!
The grammar of expressions, from the loosest binding to the tightest:

    expr       := assign
    assign     := equality ('=' assign)?
    equality   := relational (('==' | '!=') relational)*
    relational := add (('<' | '<=' | '>' | '>=') add)*
    add        := mul (('+' | '-') mul)*
    mul        := unary (('*' | '/') unary)*
    unary      := ('+' | '-')? primary
    primary    := number | name | '(' expr ')'

Every rule takes a bound greater than the number of tokens left.  Reading a
token uses up at most one of it, so a rule never finds it at zero; the bound is
there for the recursion to be on a number.
-/

namespace WordC
namespace Parser

/-- The levels of the operators that group to the left. -/
inductive Level where
  | equality
  | relational
  | add
  | mul
deriving Repr, DecidableEq

namespace Level

def production : Level → Production
  | equality => .equality
  | relational => .relational
  | add => .add
  | mul => .mul

/-- The operator that a token stands for between two operands of a level. -/
def operator? : Level → Token.Kind → Option Operator
  | equality, .equal => some .equal
  | equality, .notEqual => some .notEqual
  | relational, .less => some .less
  | relational, .lessEqual => some .lessEqual
  | relational, .greater => some .greater
  | relational, .greaterEqual => some .greaterEqual
  | add, .plus => some .add
  | add, .minus => some .sub
  | mul, .star => some .mul
  | mul, .slash => some .div
  | _, _ => none

end Level

/-- A number, a name, or an expression in parentheses. -/
def primary (expr : Parser Node) : Parser Node := within .primary do
  match (← get).rest with
  | ⟨.number, content, _⟩ :: _ =>
    match Text.readDecimal content with
    | .error _ => fail .literalOutOfRange
    | .ok value =>
      advance
      return .num value
  | ⟨.name, content, _⟩ :: _ =>
    advance
    return .ident content
  | ⟨.leftParen, _, _⟩ :: _ =>
    advance
    let inner ← expr
    expect .rightParen
    return inner
  | _ => fail (.expected Expectation.operand)

/-- A signed primary.  `-x` is `0 - x`, `+x` is `x`, and there is one sign at
most. -/
def unary (expr : Parser Node) : Parser Node := within .unary do
  if ← accept .plus then primary expr
  else if ← accept .minus then return .binary .sub (.num 0) (← primary expr)
  else primary expr

/-- The operators and operands after the first operand, folded to the left. -/
def chainRest (level : Level) (next : Parser Node) : Nat → Node → Parser Node
  | 0, left => pure left
  | bound + 1, left => do
    match (← get).kind?.bind level.operator? with
    | none => return left
    | some op =>
      advance
      let right ← next
      chainRest level next bound (.binary op left right)

/-- Operands of one level with its operators between them. -/
def chain (level : Level) (bound : Nat) (next : Parser Node) : Parser Node :=
  within level.production do
    let first ← next
    chainRest level next bound first

/-- The levels one inside the other. -/
def operation (bound : Nat) (expr : Parser Node) : Parser Node :=
  chain .equality bound <| chain .relational bound <| chain .add bound <| chain .mul bound <|
    unary expr

/-- An assignment groups to the right, and its target is a name. -/
def assign : Nat → Parser Node
  | 0 => fail (.expected Expectation.operand)
  | bound + 1 => within .assign do
    let spot ← get
    let left ← operation bound (within .expr (assign bound))
    if (← get).kind? = some .assign then
      match left with
      | .ident _ =>
        advance
        let right ← assign bound
        return .binary .assign left right
      | _ => failAt spot (.invalidTarget left)
    else return left

def expression (bound : Nat) : Parser Node := within .expr (assign bound)

end Parser
end WordC
