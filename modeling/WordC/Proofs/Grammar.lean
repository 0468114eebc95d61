import WordC.Parser.Statement
/-!
The grammar as relations between tokens and trees.

`R ts n rest` says that the tokens of `ts` in front of `rest` spell `n` by the
rule `R`.  The relations have one constructor for each alternative of a rule and
no bound, no cursor and no order in which alternatives are tried:

    program    := stmt* end
    stmt       := expr ';'
                | 'return' expr ';'
                | 'if' '(' expr ')' stmt ('else' stmt)?
                | 'while' '(' expr ')' stmt
                | 'for' '(' expr? ';' expr? ';' expr? ')' stmt
                | '{' stmt* '}'
    expr       := assign
    assign     := equality ('=' assign)?
    equality   := relational (('==' | '!=') relational)*
    relational := add (('<' | '<=' | '>' | '>=') add)*
    add        := mul (('+' | '-') mul)*
    mul        := unary (('*' | '/') unary)*
    unary      := ('+' | '-')? primary
    primary    := number | name | '(' expr ')'

What is left is carried along because one alternative looks at it: an `if`
without `else` must not be followed by `else`.
-/

namespace WordC

namespace Parser
namespace Level

/-- The level of the operands, where they are operations of a tighter level. -/
def inner? : Level → Option Level
  | equality => some relational
  | relational => some add
  | add => some mul
  | mul => none

end Level
end Parser

namespace Grammar

open WordC.Parser

/-- The next token has the kind `k`. -/
def Next (k : Token.Kind) (ts : List Token) : Prop := ts.head?.map (·.kind) = some k

/-- The operators that stand between the operands of a level, and the tokens that spell them. -/
inductive Connects : Level → Token.Kind → Operator → Prop where
  | equal : Connects .equality .equal .equal
  | notEqual : Connects .equality .notEqual .notEqual
  | less : Connects .relational .less .less
  | lessEqual : Connects .relational .lessEqual .lessEqual
  | greater : Connects .relational .greater .greater
  | greaterEqual : Connects .relational .greaterEqual .greaterEqual
  | add : Connects .add .plus .add
  | sub : Connects .add .minus .sub
  | mul : Connects .mul .star .mul
  | div : Connects .mul .slash .div

/-- The parser looks the operators up in the same table. -/
theorem connects_iff {level : Level} {k : Token.Kind} {op : Operator} :
    Connects level k op ↔ level.operator? k = some op := by
  constructor
  · intro h
    cases h <;> rfl
  · intro h
    unfold Level.operator? at h
    split at h
    all_goals cases h
    all_goals constructor

/-- Operators and operands after a first operand, grouped to the left. -/
def leftward (first : Node) (tail : List (Operator × Node)) : Node :=
  tail.foldl (fun left step => .binary step.1 left step.2) first

mutual

inductive Primary : List Token → Node → List Token → Prop where
  /-- A literal is a run of digits with a value of at most the greatest word. -/
  | number {t : Token} {rest : List Token} :
      t.kind = .number → t.content ≠ [] → t.content.all Byte.isDigit = true →
      Text.decimalValue t.content ≤ 9223372036854775807 →
      Primary (t :: rest) (.num (Int64.ofNat (Text.decimalValue t.content))) rest
  | name {t : Token} {rest : List Token} :
      t.kind = .name → Primary (t :: rest) (.ident t.content) rest
  | parens {t u : Token} {ts rest : List Token} {e : Node} :
      t.kind = .leftParen → Expr ts e (u :: rest) → u.kind = .rightParen →
      Primary (t :: ts) e rest

inductive Unary : List Token → Node → List Token → Prop where
  | plain {ts rest : List Token} {e : Node} : Primary ts e rest → Unary ts e rest
  | plus {t : Token} {ts rest : List Token} {e : Node} :
      t.kind = .plus → Primary ts e rest → Unary (t :: ts) e rest
  | minus {t : Token} {ts rest : List Token} {e : Node} :
      t.kind = .minus → Primary ts e rest → Unary (t :: ts) (.binary .sub (.num 0) e) rest

/-- What stands between the operators of a level. -/
inductive Operand : Level → List Token → Node → List Token → Prop where
  | chain {level inner : Level} {ts rest : List Token} {e : Node} :
      level.inner? = some inner → Chain inner ts e rest → Operand level ts e rest
  | unary {level : Level} {ts rest : List Token} {e : Node} :
      level.inner? = none → Unary ts e rest → Operand level ts e rest

/-- `(operator operand)*`. -/
inductive Tail : Level → List Token → List (Operator × Node) → List Token → Prop where
  | nil {level : Level} {rest : List Token} : Tail level rest [] rest
  | cons {level : Level} {t : Token} {ts mid rest : List Token} {op : Operator} {e : Node}
      {steps : List (Operator × Node)} :
      Connects level t.kind op → Operand level ts e mid → Tail level mid steps rest →
      Tail level (t :: ts) ((op, e) :: steps) rest

inductive Chain : Level → List Token → Node → List Token → Prop where
  | fold {level : Level} {ts mid rest : List Token} {first : Node}
      {steps : List (Operator × Node)} :
      Operand level ts first mid → Tail level mid steps rest →
      Chain level ts (leftward first steps) rest

/-- The target of an assignment is any operation whose tree is a name. -/
inductive Assign : List Token → Node → List Token → Prop where
  | plain {ts rest : List Token} {e : Node} : Chain .equality ts e rest → Assign ts e rest
  | assign {t : Token} {ts mid rest : List Token} {name : Text} {e : Node} :
      Chain .equality ts (.ident name) (t :: mid) → t.kind = .assign → Assign mid e rest →
      Assign ts (.binary .assign (.ident name) e) rest

inductive Expr : List Token → Node → List Token → Prop where
  | assign {ts rest : List Token} {e : Node} : Assign ts e rest → Expr ts e rest

end

/-- `expr?` and the token that ends it. -/
inductive Clause (terminator : Token.Kind) : List Token → Option Node → List Token → Prop where
  | omitted {t : Token} {rest : List Token} :
      t.kind = terminator → Clause terminator (t :: rest) none rest
  | given {t : Token} {ts rest : List Token} {e : Node} :
      Expr ts e (t :: rest) → t.kind = terminator → Clause terminator ts (some e) rest

/-- A keyword and its condition in parentheses. -/
inductive Condition (keyword : Token.Kind) : List Token → Node → List Token → Prop where
  | parens {t u v : Token} {ts rest : List Token} {e : Node} :
      t.kind = keyword → u.kind = .leftParen → Expr ts e (v :: rest) → v.kind = .rightParen →
      Condition keyword (t :: u :: ts) e rest

mutual

inductive Stmt : List Token → Node → List Token → Prop where
  | expr {t : Token} {ts rest : List Token} {e : Node} :
      Expr ts e (t :: rest) → t.kind = .semicolon → Stmt ts e rest
  | ret {t u : Token} {ts rest : List Token} {e : Node} :
      t.kind = .returnWord → Expr ts e (u :: rest) → u.kind = .semicolon →
      Stmt (t :: ts) (.ret e) rest
  /-- An `else` belongs to the nearest `if`. -/
  | ifOnly {ts mid rest : List Token} {test yes : Node} :
      Condition .ifWord ts test mid → Stmt mid yes rest → ¬ Next .elseWord rest →
      Stmt ts (.cond test yes none) rest
  | ifElse {t : Token} {ts mid mid' rest : List Token} {test yes no : Node} :
      Condition .ifWord ts test mid → Stmt mid yes (t :: mid') → t.kind = .elseWord →
      Stmt mid' no rest → Stmt ts (.cond test yes (some no)) rest
  | loop {ts mid rest : List Token} {test body : Node} :
      Condition .whileWord ts test mid → Stmt mid body rest → Stmt ts (.loop test body) rest
  | iter {t u : Token} {ts ts₁ ts₂ ts₃ rest : List Token} {init test step : Option Node}
      {body : Node} :
      t.kind = .forWord → u.kind = .leftParen → Clause .semicolon ts init ts₁ →
      Clause .semicolon ts₁ test ts₂ → Clause .rightParen ts₂ step ts₃ → Stmt ts₃ body rest →
      Stmt (t :: u :: ts) (.iter init test step body) rest
  | block {t u : Token} {ts rest : List Token} {body : List Node} :
      t.kind = .leftBrace → Stmts ts body (u :: rest) → u.kind = .rightBrace →
      Stmt (t :: ts) (.block body) rest

/-- `stmt*`. -/
inductive Stmts : List Token → List Node → List Token → Prop where
  | nil {rest : List Token} : Stmts rest [] rest
  | cons {ts mid rest : List Token} {n : Node} {ns : List Node} :
      Stmt ts n mid → Stmts mid ns rest → Stmts ts (n :: ns) rest

end

/-- The tokens spell the program. -/
def Spells (tokens : Tokens) (p : Program) : Prop := Stmts tokens.body p []

/-! ## Length

Every rule but the repetitions takes a token. -/

mutual

theorem Primary.length_lt {ts rest : List Token} {e : Node} (h : Primary ts e rest) :
    rest.length < ts.length := by
  match h with
  | .number _ _ _ _ => simp
  | .name _ => simp
  | .parens _ hinside _ =>
    have := hinside.length_lt
    simp only [List.length_cons] at this ⊢
    omega

theorem Unary.length_lt {ts rest : List Token} {e : Node} (h : Unary ts e rest) :
    rest.length < ts.length := by
  match h with
  | .plain h => exact h.length_lt
  | .plus _ h => exact Nat.lt_succ_of_lt h.length_lt
  | .minus _ h => exact Nat.lt_succ_of_lt h.length_lt

theorem Operand.length_lt {level : Level} {ts rest : List Token} {e : Node}
    (h : Operand level ts e rest) : rest.length < ts.length := by
  match h with
  | .chain _ h => exact h.length_lt
  | .unary _ h => exact h.length_lt

theorem Tail.length_le {level : Level} {ts rest : List Token} {steps : List (Operator × Node)}
    (h : Tail level ts steps rest) : rest.length + steps.length ≤ ts.length := by
  match h with
  | .nil => simp
  | .cons _ hoperand htail =>
    have hlt := hoperand.length_lt
    have hle := htail.length_le
    simp only [List.length_cons]
    omega

theorem Chain.length_lt {level : Level} {ts rest : List Token} {e : Node}
    (h : Chain level ts e rest) : rest.length < ts.length := by
  match h with
  | .fold hoperand htail =>
    have hlt := hoperand.length_lt
    have hle := htail.length_le
    omega

theorem Assign.length_lt {ts rest : List Token} {e : Node} (h : Assign ts e rest) :
    rest.length < ts.length := by
  match h with
  | .plain h => exact h.length_lt
  | .assign htarget _ hvalue =>
    have hlt := htarget.length_lt
    have hlt' := hvalue.length_lt
    simp only [List.length_cons] at hlt
    omega

theorem Expr.length_lt {ts rest : List Token} {e : Node} (h : Expr ts e rest) :
    rest.length < ts.length := by
  match h with
  | .assign h => exact h.length_lt

end

theorem Clause.length_lt {k : Token.Kind} {ts rest : List Token} {o : Option Node}
    (h : Clause k ts o rest) : rest.length < ts.length := by
  match h with
  | .omitted _ => simp
  | .given h _ =>
    have := h.length_lt
    simp only [List.length_cons] at this
    omega

theorem Condition.length_lt {k : Token.Kind} {ts rest : List Token} {e : Node}
    (h : Condition k ts e rest) : rest.length < ts.length := by
  match h with
  | .parens _ _ h _ =>
    have := h.length_lt
    simp only [List.length_cons] at this ⊢
    omega

mutual

theorem Stmt.length_lt {ts rest : List Token} {n : Node} (h : Stmt ts n rest) :
    rest.length < ts.length := by
  match h with
  | .expr h _ =>
    have := h.length_lt
    simp only [List.length_cons] at this
    omega
  | .ret _ h _ =>
    have := h.length_lt
    simp only [List.length_cons] at this ⊢
    omega
  | .ifOnly hcondition hyes _ => exact Nat.lt_trans hyes.length_lt hcondition.length_lt
  | .ifElse hcondition hyes _ hno =>
    have h₁ := hcondition.length_lt
    have h₂ := hyes.length_lt
    have h₃ := hno.length_lt
    simp only [List.length_cons] at h₂
    omega
  | .loop hcondition hbody => exact Nat.lt_trans hbody.length_lt hcondition.length_lt
  | .iter _ _ hinit htest hstep hbody =>
    have h₁ := hinit.length_lt
    have h₂ := htest.length_lt
    have h₃ := hstep.length_lt
    have h₄ := hbody.length_lt
    simp only [List.length_cons]
    omega
  | .block _ hbody _ =>
    have := hbody.length_le
    simp only [List.length_cons] at this ⊢
    omega

theorem Stmts.length_le {ts rest : List Token} {ns : List Node} (h : Stmts ts ns rest) :
    rest.length + ns.length ≤ ts.length := by
  match h with
  | .nil => simp
  | .cons hfirst hothers =>
    have hlt := hfirst.length_lt
    have hle := hothers.length_le
    rw [List.length_cons]
    omega

end

/-! ## First tokens -/

/-- The next token has one of the kinds. -/
def Starts (kinds : List Token.Kind) (ts : List Token) : Prop := ∃ k ∈ kinds, Next k ts

theorem starts_cons {kinds : List Token.Kind} {t : Token} (ts : List Token) (h : t.kind ∈ kinds) :
    Starts kinds (t :: ts) :=
  ⟨t.kind, h, rfl⟩

theorem Starts.not_next {kinds : List Token.Kind} {ts : List Token} {k : Token.Kind}
    (h : Starts kinds ts) (hk : k ∉ kinds) : ¬ Next k ts := by
  intro hnext
  obtain ⟨k', hk', hnext'⟩ := h
  have heq : k' = k := Option.some.inj (hnext'.symm.trans hnext)
  exact hk (heq ▸ hk')

theorem Starts.mono {kinds kinds' : List Token.Kind} {ts : List Token} (h : Starts kinds ts)
    (hsub : kinds ⊆ kinds') : Starts kinds' ts := by
  obtain ⟨k, hk, hnext⟩ := h
  exact ⟨k, hsub hk, hnext⟩

/-- What a primary starts with. -/
def primaryKinds : List Token.Kind := [.number, .name, .leftParen]

/-- What an expression starts with. -/
def exprKinds : List Token.Kind := [.plus, .minus] ++ primaryKinds

theorem Primary.starts {ts rest : List Token} {e : Node} (h : Primary ts e rest) :
    Starts primaryKinds ts := by
  match h with
  | .number hk _ _ _ => exact starts_cons _ (by simp [hk, primaryKinds])
  | .name hk => exact starts_cons _ (by simp [hk, primaryKinds])
  | .parens hk _ _ => exact starts_cons _ (by simp [hk, primaryKinds])

theorem Unary.starts {ts rest : List Token} {e : Node} (h : Unary ts e rest) :
    Starts exprKinds ts := by
  match h with
  | .plain h => exact h.starts.mono (List.subset_append_right _ _)
  | .plus hk _ => exact starts_cons _ (by simp [hk, exprKinds])
  | .minus hk _ => exact starts_cons _ (by simp [hk, exprKinds])

mutual

theorem Operand.starts {level : Level} {ts rest : List Token} {e : Node}
    (h : Operand level ts e rest) : Starts exprKinds ts := by
  match h with
  | .chain _ h => exact h.starts
  | .unary _ h => exact h.starts

theorem Chain.starts {level : Level} {ts rest : List Token} {e : Node}
    (h : Chain level ts e rest) : Starts exprKinds ts := by
  match h with
  | .fold h _ => exact h.starts

end

theorem Expr.starts {ts rest : List Token} {e : Node} (h : Expr ts e rest) :
    Starts exprKinds ts := by
  match h with
  | .assign (.plain h) => exact h.starts
  | .assign (.assign h _ _) => exact h.starts

theorem Condition.starts {k : Token.Kind} {ts rest : List Token} {e : Node}
    (h : Condition k ts e rest) : Next k ts := by
  match h with
  | .parens hk _ _ _ => rw [← hk]; rfl

/-- What a statement starts with. -/
def stmtKinds : List Token.Kind :=
  [.returnWord, .ifWord, .whileWord, .forWord, .leftBrace] ++ exprKinds

theorem Stmt.starts {ts rest : List Token} {n : Node} (h : Stmt ts n rest) :
    Starts stmtKinds ts := by
  match h with
  | .expr h _ => exact h.starts.mono (List.subset_append_right _ _)
  | .ret hk _ _ => exact starts_cons _ (by simp [hk, stmtKinds])
  | .ifOnly h _ _ => exact ⟨_, by simp [stmtKinds], h.starts⟩
  | .ifElse h _ _ _ => exact ⟨_, by simp [stmtKinds], h.starts⟩
  | .loop h _ => exact ⟨_, by simp [stmtKinds], h.starts⟩
  | .iter hk _ _ _ _ _ => exact starts_cons _ (by simp [hk, stmtKinds])
  | .block hk _ _ => exact starts_cons _ (by simp [hk, stmtKinds])

end Grammar
end WordC
