import WordC.Node
/-!
What programs mean, said without code, stack or labels.

Values are words and the store gives every variable one, zero at first.  An
expression has a value and may change the store, or it stops: at a division by
zero, or at the one quotient that no word holds.  Statements are related to how
they end.  A loop is related to an ending only if it reaches one, so a program
that runs forever has no result.

The state of a run has the last value produced beside the store: by an expression
statement, by a condition, or by a clause of a `for`.  It is the result of a
program that does not return.
-/

namespace WordC
namespace Evaluation

/-- The values of the variables. -/
abbrev Store := Text → Word

namespace Store

def zero : Store := fun _ => 0

def set (σ : Store) (name : Text) (v : Word) : Store := fun x => if x = name then v else σ x

end Store

/-- Why there is no value. -/
inductive Stop where
  | divisionByZero
  | divisionOverflow
  /-- A tree that no source text spells. -/
  | meaningless
deriving Repr, DecidableEq

/-- The word that an exact result wraps to. -/
def wrap (n : Int) : Word := Int64.ofInt n

def truth (p : Prop) [Decidable p] : Word := if p then 1 else 0

/-- What an operator makes of two values.  Arithmetic wraps, division truncates toward
zero, and comparisons are signed. -/
def operate (op : Operator) (a b : Word) : Except Stop Word :=
  match op with
  | .add => .ok (wrap (a.toInt + b.toInt))
  | .sub => .ok (wrap (a.toInt - b.toInt))
  | .mul => .ok (wrap (a.toInt * b.toInt))
  | .div =>
    if b.toInt = 0 then .error .divisionByZero
    else if a.toInt = Word.least ∧ b.toInt = -1 then .error .divisionOverflow
    else .ok (wrap (a.toInt.tdiv b.toInt))
  | .less => .ok (truth (a.toInt < b.toInt))
  | .lessEqual => .ok (truth (a.toInt ≤ b.toInt))
  | .greater => .ok (truth (a.toInt > b.toInt))
  | .greaterEqual => .ok (truth (a.toInt ≥ b.toInt))
  | .equal => .ok (truth (a = b))
  | .notEqual => .ok (truth (a ≠ b))
  | .assign | .unknown _ => .error .meaningless

/-- The value of an expression and the store it leaves.  Operands are evaluated
from left to right, and an assignment has the value of its right side. -/
def value : Node → Store → Except Stop (Word × Store)
  | .num v, σ => .ok (v, σ)
  | .ident name, σ => .ok (σ name, σ)
  | .binary .assign left right, σ =>
    match left with
    | .ident name => do
      let (v, σ') ← value right σ
      return (v, σ'.set name v)
    | _ => .error .meaningless
  | .binary op left right, σ => do
    let (a, σ₁) ← value left σ
    let (b, σ₂) ← value right σ₁
    let v ← operate op a b
    return (v, σ₂)
  | _, _ => .error .meaningless

theorem value_assign (name : Text) (right : Node) (σ : Store) :
    value (.binary .assign (.ident name) right) σ =
      value right σ >>= fun p => .ok (p.1, p.2.set name p.1) := rfl

theorem value_binary {op : Operator} (h : op ≠ .assign) (left right : Node) (σ : Store) :
    value (.binary op left right) σ =
      value left σ >>= fun p => value right p.2 >>= fun q =>
        operate op p.1 q.1 >>= fun v => .ok (v, q.2) := by
  cases op with
  | assign => exact absurd rfl h
  | _ => rfl

/-- The state between two statements. -/
structure Env where
  store : Store
  /-- The last value produced. -/
  last : Word

def Env.initial : Env := ⟨.zero, 0⟩

/-- How a statement ends. -/
inductive Ending where
  /-- The next statement follows. -/
  | next (env : Env)
  | returned (v : Word)
  | stopped (s : Stop)

namespace Ending

/-- What follows the statement is not reached. -/
def Abrupt : Ending → Prop
  | next _ => False
  | returned _ | stopped _ => True

/-- The result of a program that ends so. -/
def result : Ending → Except Stop Word
  | next env => .ok env.last
  | returned v => .ok v
  | stopped s => .error s

end Ending

namespace Env

/-- An expression as a statement. -/
def evaluate (env : Env) (e : Node) : Ending :=
  match value e env.store with
  | .ok (v, σ) => .next ⟨σ, v⟩
  | .error s => .stopped s

def answer (env : Env) (e : Node) : Ending :=
  match value e env.store with
  | .ok (v, _) => .returned v
  | .error s => .stopped s

/-- Whether a condition holds, and the state it leaves.  A missing one holds. -/
def test (env : Env) : Option Node → Except Stop (Bool × Env)
  | none => .ok (true, env)
  | some e =>
    match value e env.store with
    | .ok (v, σ) => .ok (v ≠ 0, ⟨σ, v⟩)
    | .error s => .error s

end Env

mutual

/-- The statement ends so when it is begun in the state. -/
inductive Exec : Node → Env → Ending → Prop where
  | expression {e : Node} {env : Env} :
      e.isExpression = true → Exec e env (env.evaluate e)
  | ret {e : Node} {env : Env} : Exec (.ret e) env (env.answer e)
  | condYes {test yes : Node} {no : Option Node} {env env' : Env} {k : Ending} :
      env.test (some test) = .ok (true, env') → Exec yes env' k → Exec (.cond test yes no) env k
  | condNo {test yes : Node} {no : Option Node} {env env' : Env} {k : Ending} :
      env.test (some test) = .ok (false, env') → ExecOptional no env' k →
      Exec (.cond test yes no) env k
  | condStops {test yes : Node} {no : Option Node} {env : Env} {s : Stop} :
      env.test (some test) = .error s → Exec (.cond test yes no) env (.stopped s)
  | loop {test body : Node} {env : Env} {k : Ending} :
      Loops (some test) body none env k → Exec (.loop test body) env k
  | iter {init test step : Option Node} {body : Node} {env env' : Env} {k : Ending} :
      ExecOptional init env (.next env') → Loops test body step env' k →
      Exec (.iter init test step body) env k
  | iterLeaves {init test step : Option Node} {body : Node} {env : Env} {k : Ending} :
      ExecOptional init env k → k.Abrupt → Exec (.iter init test step body) env k
  | block {body : List Node} {env : Env} {k : Ending} :
      ExecAll body env k → Exec (.block body) env k

/-- A statement that may be left out. -/
inductive ExecOptional : Option Node → Env → Ending → Prop where
  | none {env : Env} : ExecOptional none env (.next env)
  | some {n : Node} {env : Env} {k : Ending} : Exec n env k → ExecOptional (some n) env k

/-- The test, the body and the step, over and over. -/
inductive Loops : Option Node → Node → Option Node → Env → Ending → Prop where
  | stops {test step : Option Node} {body : Node} {env : Env} {s : Stop} :
      env.test test = .error s → Loops test body step env (.stopped s)
  | done {test step : Option Node} {body : Node} {env env' : Env} :
      env.test test = .ok (false, env') → Loops test body step env (.next env')
  | again {test step : Option Node} {body : Node} {env env₁ env₂ env₃ : Env} {k : Ending} :
      env.test test = .ok (true, env₁) → Exec body env₁ (.next env₂) →
      ExecOptional step env₂ (.next env₃) → Loops test body step env₃ k →
      Loops test body step env k
  | bodyLeaves {test step : Option Node} {body : Node} {env env₁ : Env} {k : Ending} :
      env.test test = .ok (true, env₁) → Exec body env₁ k → k.Abrupt →
      Loops test body step env k
  | stepLeaves {test step : Option Node} {body : Node} {env env₁ env₂ : Env} {k : Ending} :
      env.test test = .ok (true, env₁) → Exec body env₁ (.next env₂) →
      ExecOptional step env₂ k → k.Abrupt → Loops test body step env k

inductive ExecAll : List Node → Env → Ending → Prop where
  | nil {env : Env} : ExecAll [] env (.next env)
  | cons {n : Node} {ns : List Node} {env env' : Env} {k : Ending} :
      Exec n env (.next env') → ExecAll ns env' k → ExecAll (n :: ns) env k
  | leaves {n : Node} {ns : List Node} {env : Env} {k : Ending} :
      Exec n env k → k.Abrupt → ExecAll (n :: ns) env k

end

/-! ## One ending at most -/

theorem Ending.Abrupt.ne_next {k : Ending} (h : k.Abrupt) {env : Env} : k ≠ .next env := by
  intro heq
  rw [heq] at h
  exact h

mutual

theorem Exec.unique {n : Node} {env : Env} {k k' : Ending} (h : Exec n env k)
    (h' : Exec n env k') : k = k' := by
  match h with
  | .expression he =>
    cases h' with
    | expression _ => rfl
    | _ => cases he
  | .ret =>
    cases h' with
    | expression he => cases he
    | ret => rfl
  | .condYes htest hyes =>
    cases h' with
    | expression he => cases he
    | condYes htest' hyes' =>
      cases htest.symm.trans htest'
      exact hyes.unique hyes'
    | condNo htest' _ => cases htest.symm.trans htest'
    | condStops htest' => cases htest.symm.trans htest'
  | .condNo htest hno =>
    cases h' with
    | expression he => cases he
    | condYes htest' _ => cases htest.symm.trans htest'
    | condNo htest' hno' =>
      cases htest.symm.trans htest'
      exact hno.unique hno'
    | condStops htest' => cases htest.symm.trans htest'
  | .condStops htest =>
    cases h' with
    | expression he => cases he
    | condYes htest' _ => cases htest.symm.trans htest'
    | condNo htest' _ => cases htest.symm.trans htest'
    | condStops htest' =>
      cases htest.symm.trans htest'
      rfl
  | .loop hloops =>
    cases h' with
    | expression he => cases he
    | loop hloops' => exact hloops.unique hloops'
  | .iter hinit hloops =>
    cases h' with
    | expression he => cases he
    | iter hinit' hloops' =>
      cases hinit.unique hinit'
      exact hloops.unique hloops'
    | iterLeaves hinit' habrupt => exact absurd (hinit.unique hinit').symm habrupt.ne_next
  | .iterLeaves hinit habrupt =>
    cases h' with
    | expression he => cases he
    | iter hinit' _ => exact absurd (hinit.unique hinit') habrupt.ne_next
    | iterLeaves hinit' _ => exact hinit.unique hinit'
  | .block hbody =>
    cases h' with
    | expression he => cases he
    | block hbody' => exact hbody.unique hbody'
termination_by structural h

theorem ExecOptional.unique {o : Option Node} {env : Env} {k k' : Ending}
    (h : ExecOptional o env k) (h' : ExecOptional o env k') : k = k' := by
  match h with
  | .none =>
    cases h'
    rfl
  | .some h =>
    cases h' with
    | some h' => exact h.unique h'
termination_by structural h

theorem Loops.unique {test step : Option Node} {body : Node} {env : Env} {k k' : Ending}
    (h : Loops test body step env k) (h' : Loops test body step env k') : k = k' := by
  match h with
  | .stops htest =>
    cases h' with
    | stops htest' =>
      cases htest.symm.trans htest'
      rfl
    | done htest' => cases htest.symm.trans htest'
    | again htest' _ _ _ => cases htest.symm.trans htest'
    | bodyLeaves htest' _ _ => cases htest.symm.trans htest'
    | stepLeaves htest' _ _ _ => cases htest.symm.trans htest'
  | .done htest =>
    cases h' with
    | stops htest' => cases htest.symm.trans htest'
    | done htest' =>
      cases htest.symm.trans htest'
      rfl
    | again htest' _ _ _ => cases htest.symm.trans htest'
    | bodyLeaves htest' _ _ => cases htest.symm.trans htest'
    | stepLeaves htest' _ _ _ => cases htest.symm.trans htest'
  | .again htest hbody hstep hloops =>
    cases h' with
    | stops htest' => cases htest.symm.trans htest'
    | done htest' => cases htest.symm.trans htest'
    | again htest' hbody' hstep' hloops' =>
      cases htest.symm.trans htest'
      cases hbody.unique hbody'
      cases hstep.unique hstep'
      exact hloops.unique hloops'
    | bodyLeaves htest' hbody' habrupt =>
      cases htest.symm.trans htest'
      exact absurd (hbody.unique hbody').symm habrupt.ne_next
    | stepLeaves htest' hbody' hstep' habrupt =>
      cases htest.symm.trans htest'
      cases hbody.unique hbody'
      exact absurd (hstep.unique hstep').symm habrupt.ne_next
  | .bodyLeaves htest hbody habrupt =>
    cases h' with
    | stops htest' => cases htest.symm.trans htest'
    | done htest' => cases htest.symm.trans htest'
    | again htest' hbody' _ _ =>
      cases htest.symm.trans htest'
      exact absurd (hbody.unique hbody') habrupt.ne_next
    | bodyLeaves htest' hbody' _ =>
      cases htest.symm.trans htest'
      exact hbody.unique hbody'
    | stepLeaves htest' hbody' _ _ =>
      cases htest.symm.trans htest'
      exact absurd (hbody.unique hbody') habrupt.ne_next
  | .stepLeaves htest hbody hstep habrupt =>
    cases h' with
    | stops htest' => cases htest.symm.trans htest'
    | done htest' => cases htest.symm.trans htest'
    | again htest' hbody' hstep' _ =>
      cases htest.symm.trans htest'
      cases hbody.unique hbody'
      exact absurd (hstep.unique hstep') habrupt.ne_next
    | bodyLeaves htest' hbody' habrupt' =>
      cases htest.symm.trans htest'
      exact absurd (hbody.unique hbody').symm habrupt'.ne_next
    | stepLeaves htest' hbody' hstep' _ =>
      cases htest.symm.trans htest'
      cases hbody.unique hbody'
      exact hstep.unique hstep'
termination_by structural h

theorem ExecAll.unique {ns : List Node} {env : Env} {k k' : Ending} (h : ExecAll ns env k)
    (h' : ExecAll ns env k') : k = k' := by
  match h with
  | .nil =>
    cases h'
    rfl
  | .cons hfirst hothers =>
    cases h' with
    | cons hfirst' hothers' =>
      cases hfirst.unique hfirst'
      exact hothers.unique hothers'
    | leaves hfirst' habrupt => exact absurd (hfirst.unique hfirst').symm habrupt.ne_next
  | .leaves hfirst habrupt =>
    cases h' with
    | cons hfirst' _ => exact absurd (hfirst.unique hfirst') habrupt.ne_next
    | leaves hfirst' _ => exact hfirst.unique hfirst'
termination_by structural h

end

/-- The program has the result: the value of the first `return`, or else the last
value produced, or the reason why it stops. -/
def Evaluates (p : Program) (r : Except Stop Word) : Prop :=
  ∃ k, ExecAll p .initial k ∧ r = k.result

/-- A program has one result at most. -/
theorem Evaluates.unique {p : Program} {r r' : Except Stop Word} (h : Evaluates p r)
    (h' : Evaluates p r') : r = r' := by
  obtain ⟨k, hk, rfl⟩ := h
  obtain ⟨k', hk', rfl⟩ := h'
  rw [hk.unique hk']

end Evaluation
end WordC
