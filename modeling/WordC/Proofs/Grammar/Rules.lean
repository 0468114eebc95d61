import WordC.Parser.Statement
/-!
What the rules are made of.

Every rule is put together from a few steps: to look at the cursor, to step over a token, to
fail, and to read another rule within a production.  What each step does and what one step
after another does then holds of every rule.
-/

namespace WordC
namespace Parser

/-- The reader is made of steps, and fails only at its own cursor or at one that it has seen
before.  Of the cursors that it sees, `S` is known. -/
inductive Built (S : Cursor → Prop) : {α : Type} → Parser α → Prop where
  | pure {α : Type} (a : α) : Built S (pure a)
  | bind {α β : Type} {p : Parser α} {f : α → Parser β} :
      Built S p → (∀ a, Built S (f a)) → Built S (p >>= f)
  | get {β : Type} {f : Cursor → Parser β} :
      (∀ c, S c → Built S (f c)) → Built S (EStateM.get >>= f)
  | fail {α : Type} (cause : Rejection.Cause) : Built S (fail cause : Parser α)
  | failAt {α : Type} {spot : Cursor} (cause : Rejection.Cause) :
      S spot → Built S (failAt spot cause : Parser α)
  | within {α : Type} {p : Parser α} (production : Production) :
      Built S p → Built S (within production p)
  | advance : Built S advance

namespace Built

variable {S : Cursor → Prop}

theorem accept (k : Token.Kind) : Built S (accept k) := by
  refine .get fun c _ => ?_
  split
  · exact .bind .advance fun _ => .pure true
  · exact .pure false

theorem expect (k : Token.Kind) : Built S (expect k) := by
  refine .bind (accept k) fun b => ?_
  cases b with
  | false => exact .fail _
  | true => exact .pure ()

/-! ## Expressions -/

theorem primary {expr : Parser Node} (hexpr : Built S expr) : Built S (primary expr) := by
  refine .within _ (.get fun c _ => ?_)
  split
  · split
    · exact .fail _
    · exact .bind .advance fun _ => .pure _
  · exact .bind .advance fun _ => .pure _
  · exact .bind .advance fun _ => .bind hexpr fun _ => .bind (expect _) fun _ => .pure _
  · exact .fail _

theorem unary {expr : Parser Node} (hexpr : Built S expr) : Built S (unary expr) := by
  refine .within _ (.bind (accept _) fun plus => ?_)
  split
  · exact primary hexpr
  · refine .bind (accept _) fun minus => ?_
    split
    · exact .bind (primary hexpr) fun _ => .pure _
    · exact primary hexpr

theorem chainRest (level : Level) {next : Parser Node} (hnext : Built S next) (bound : Nat)
    (left : Node) : Built S (chainRest level next bound left) := by
  induction bound generalizing left with
  | zero => exact .pure left
  | succ bound ih =>
    refine .get fun c _ => ?_
    split
    · exact .pure left
    · exact .bind .advance fun _ => .bind hnext fun _ => ih _

theorem chain (level : Level) (bound : Nat) {next : Parser Node} (hnext : Built S next) :
    Built S (chain level bound next) :=
  .within _ (.bind hnext fun first => chainRest level hnext bound first)

theorem operation (bound : Nat) {expr : Parser Node} (hexpr : Built S expr) :
    Built S (operation bound expr) :=
  chain _ bound (chain _ bound (chain _ bound (chain _ bound (unary hexpr))))

theorem assign (bound : Nat) : Built S (assign bound) := by
  induction bound with
  | zero => exact .fail _
  | succ bound ih =>
    refine .within _ (.get fun spot hspot => ?_)
    refine .bind (operation bound (.within _ ih)) fun left => .get fun c _ => ?_
    split
    · split
      · exact .bind .advance fun _ => .bind ih fun _ => .pure _
      · exact .failAt _ hspot
    · exact .pure left

theorem expression (bound : Nat) : Built S (expression bound) := .within _ (assign bound)

/-! ## Statements -/

theorem expressionThen (bound : Nat) (terminator : Token.Kind) :
    Built S (expressionThen bound terminator) :=
  .bind (expression bound) fun _ => .bind (expect _) fun _ => .pure _

theorem clause (bound : Nat) (terminator : Token.Kind) : Built S (clause bound terminator) := by
  refine .bind (accept _) fun missing => ?_
  split
  · exact .pure none
  · exact .bind (expressionThen bound terminator) fun _ => .pure _

theorem condition (bound : Nat) : Built S (condition bound) :=
  .bind .advance fun _ => .bind (expect _) fun _ => expressionThen bound _

theorem blockRest {stmt : Parser Node} (hstmt : Built S stmt) (bound : Nat) :
    Built S (blockRest stmt bound) := by
  induction bound with
  | zero => exact .fail _
  | succ bound ih =>
    refine .bind (accept _) fun closed => ?_
    split
    · exact .pure []
    · refine .get fun c _ => ?_
      split
      · exact .fail _
      · exact .bind hstmt fun _ => .bind ih fun _ => .pure _

theorem statement (bound : Nat) : Built S (statement bound) := by
  induction bound with
  | zero => exact .fail _
  | succ bound ih =>
    refine .within _ (.get fun c _ => ?_)
    split
    · exact .bind .advance fun _ => .bind (expressionThen _ _) fun _ => .pure _
    · refine .bind (condition _) fun test => .bind ih fun yes => .bind (accept _) fun more => ?_
      split
      · exact .bind ih fun _ => .pure _
      · exact .pure _
    · exact .bind (condition _) fun _ => .bind ih fun _ => .pure _
    · exact .bind .advance fun _ => .bind (expect _) fun _ => .bind (clause _ _) fun _ =>
        .bind (clause _ _) fun _ => .bind (clause _ _) fun _ => .bind ih fun _ => .pure _
    · exact .within _ (.bind .advance fun _ => .bind (blockRest ih bound) fun _ => .pure _)
    · exact expressionThen _ _

theorem statements (bound count : Nat) : Built S (statements bound count) := by
  induction count with
  | zero => exact .pure []
  | succ count ih =>
    refine .get fun c _ => ?_
    split
    · exact .pure []
    · exact .bind (statement bound) fun _ => .bind ih fun _ => .pure _

theorem program (bound : Nat) : Built S (program bound) := .within _ (statements bound bound)

end Built

/-- The functions that read a part of a program. -/
inductive Rule : {α : Type} → Parser α → Prop where
  | accept (k : Token.Kind) : Rule (accept k)
  | expect (k : Token.Kind) : Rule (expect k)
  | primary {expr : Parser Node} : Rule expr → Rule (primary expr)
  | unary {expr : Parser Node} : Rule expr → Rule (unary expr)
  | chain (level : Level) (bound : Nat) {next : Parser Node} :
      Rule next → Rule (chain level bound next)
  | assign (bound : Nat) : Rule (assign bound)
  | expression (bound : Nat) : Rule (expression bound)
  | expressionThen (bound : Nat) (terminator : Token.Kind) : Rule (expressionThen bound terminator)
  | clause (bound : Nat) (terminator : Token.Kind) : Rule (clause bound terminator)
  | condition (bound : Nat) : Rule (condition bound)
  | blockRest {stmt : Parser Node} (bound : Nat) : Rule stmt → Rule (blockRest stmt bound)
  | statement (bound : Nat) : Rule (statement bound)
  | statements (bound count : Nat) : Rule (statements bound count)
  | program (bound : Nat) : Rule (program bound)

theorem Rule.built {S : Cursor → Prop} {α : Type} {p : Parser α} (h : Rule p) : Built S p := by
  induction h with
  | accept k => exact .accept k
  | expect k => exact .expect k
  | primary _ ih => exact .primary ih
  | unary _ ih => exact .unary ih
  | chain level bound _ ih => exact .chain level bound ih
  | assign bound => exact .assign bound
  | expression bound => exact .expression bound
  | expressionThen bound terminator => exact .expressionThen bound terminator
  | clause bound terminator => exact .clause bound terminator
  | condition bound => exact .condition bound
  | blockRest bound _ ih => exact .blockRest ih bound
  | statement bound => exact .statement bound
  | statements bound count => exact .statements bound count
  | program bound => exact .program bound

end Parser
end WordC
