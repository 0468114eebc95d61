import Mathlib
import WordC.Proofs.Grammar.Soundness
/-!
What the grammar derives, the parser accepts.

The parser takes operators as long as there are any, while a derivation may stop
anywhere.  The two agree because an expression is always followed by a token
that no level knows as an operator, and an operand by a token that no tighter
level knows: `Stops` says so of what a derivation leaves.
-/

namespace WordC
namespace Parser

open Grammar

/-- The reader takes the tokens in front of `rest` and returns `a`, whatever the
ending and the trail. -/
def Reads {α : Type} (p : Parser α) (ts : List Token) (a : α) (rest : List Token) : Prop :=
  ∀ (ending : Place) (trail : List Production),
    p ⟨ts, ending, trail⟩ = .ok a ⟨rest, ending, trail⟩

namespace Reads

variable {α β : Type} {ts mid rest : List Token}

theorem pure (a : α) : Reads (pure a) ts a ts := fun _ _ => rfl

theorem bind {p : Parser α} {f : α → Parser β} {a : α} {b : β} (hp : Reads p ts a mid)
    (hf : Reads (f a) mid b rest) : Reads (p >>= f) ts b rest := by
  intro ending trail
  rw [bind_of_ok (hp ending trail)]
  exact hf ending trail

theorem get {f : Cursor → Parser β} {b : β}
    (hf : ∀ ending trail, Reads (f ⟨ts, ending, trail⟩) ts b rest) :
    Reads (EStateM.get >>= f) ts b rest :=
  fun ending trail => hf ending trail ending trail

theorem within {p : Parser α} {a : α} (production : Production) (h : Reads p ts a rest) :
    Reads (within production p) ts a rest := by
  intro ending trail
  rw [Parser.within, h ending (production :: trail)]
  rfl

theorem advance (t : Token) : Reads advance (t :: rest) () rest := fun _ _ => rfl

theorem accept {k : Token.Kind} {t : Token} (ht : t.kind = k) :
    Reads (accept k) (t :: rest) true rest := by
  refine get fun ending trail => ?_
  rw [if_pos (by simp [Cursor.kind?, ht])]
  exact bind (advance t) (pure true)

theorem pass {k : Token.Kind} (h : ¬ Next k ts) : Reads (Parser.accept k) ts false ts := by
  refine get fun ending trail => ?_
  have hkind : ¬ (Cursor.mk ts ending trail).kind? = some k := h
  rw [if_neg hkind]
  exact pure false

theorem expect {k : Token.Kind} {t : Token} (ht : t.kind = k) :
    Reads (expect k) (t :: rest) () rest :=
  bind (accept ht) (pure ())

end Reads

namespace Level

/-- The level and all tighter ones. -/
def inward : Level → List Level
  | equality => [equality, relational, add, mul]
  | relational => [relational, add, mul]
  | add => [add, mul]
  | mul => [mul]

/-- The next token is no operator of the level or of a tighter one. -/
def Stops (level : Level) (ts : List Token) : Prop :=
  ∀ l ∈ level.inward, (ts.head?.map (·.kind)).bind l.operator? = none

theorem Stops.inner {level inner : Level} {ts : List Token} (hinner : level.inner? = some inner)
    (h : level.Stops ts) : inner.Stops ts := by
  intro l hl
  refine h l ?_
  revert hl
  cases level <;> cases hinner <;> simp +contextual [inward]

/-- No token is an operator of two levels. -/
theorem operator?_eq_none {level other : Level} {k : Token.Kind} {op : Operator}
    (h : Connects level k op) (hne : other ≠ level) : other.operator? k = none := by
  cases h <;> cases other <;> first | rfl | exact absurd rfl hne

theorem stops_operator {level inner : Level} {t : Token} {ts : List Token} {op : Operator}
    (hinner : level.inner? = some inner) (h : Connects level t.kind op) :
    inner.Stops (t :: ts) := by
  intro l hl
  refine operator?_eq_none h ?_
  intro heq
  revert hl
  cases level <;> cases hinner <;> simp [heq, inward]

/-- The reader of what stands between the operators of a level. -/
def operandReader (bound : Nat) (expr : Parser Node) : Level → Parser Node
  | mul => unary expr
  | add => chain mul bound (unary expr)
  | relational => chain add bound (chain mul bound (unary expr))
  | equality => chain relational bound (chain add bound (chain mul bound (unary expr)))

theorem operandReader_inner {bound : Nat} {expr : Parser Node} {level inner : Level}
    (h : level.inner? = some inner) :
    operandReader bound expr level = chain inner bound (operandReader bound expr inner) := by
  cases level <;> cases h <;> rfl

theorem operandReader_innermost {bound : Nat} {expr : Parser Node} {level : Level}
    (h : level.inner? = none) : operandReader bound expr level = unary expr := by
  cases level <;> cases h
  rfl

end Level

/-- An expression ends here: the next token closes what it stands in. -/
def Closes (ts : List Token) : Prop := Starts [.rightParen, .semicolon] ts

theorem Closes.stops {level : Level} {ts : List Token} (h : Closes ts) : level.Stops ts := by
  intro l _
  obtain ⟨k, hk, hnext⟩ := h
  rw [hnext]
  simp only [List.mem_cons, List.not_mem_nil, or_false] at hk
  rcases hk with rfl | rfl <;> cases l <;> rfl

theorem stops_assign {level : Level} {t : Token} {ts : List Token} (h : t.kind = .assign) :
    level.Stops (t :: ts) := by
  intro l _
  simp only [List.head?_cons, Option.map_some, h, Option.bind_some]
  cases l <;> rfl

/-- After an operand stands an operator of its level, or what follows the tail. -/
theorem stops_of_tail {level : Level} {ts rest : List Token} {steps : List (Operator × Node)}
    (h : Tail level ts steps rest) (hstops : level.Stops rest) (inner : Level)
    (hinner : level.inner? = some inner) : inner.Stops ts := by
  cases h with
  | nil => exact hstops.inner hinner
  | cons hop _ _ => exact Level.stops_operator hinner hop

/-! ## Expressions -/

section

variable {expr : Parser Node} {ts rest : List Token} {e : Node}

theorem reads_number {t : Token} {value : Word} (hk : t.kind = .number)
    (hvalue : Text.readDecimal t.content = .ok value) :
    Reads (primary expr) (t :: rest) (.num value) rest := by
  obtain ⟨kind, content, place⟩ := t
  obtain rfl : kind = .number := hk
  refine Reads.within _ (Reads.get fun ending trail => ?_)
  dsimp only at hvalue ⊢
  rw [hvalue]
  exact Reads.bind (Reads.advance _) (Reads.pure _)

theorem reads_name {t : Token} (hk : t.kind = .name) :
    Reads (primary expr) (t :: rest) (.ident t.content) rest := by
  obtain ⟨kind, content, place⟩ := t
  obtain rfl : kind = .name := hk
  exact Reads.within _ (Reads.get fun ending trail => Reads.bind (Reads.advance _) (Reads.pure _))

theorem reads_parens {t u : Token} (hopen : t.kind = .leftParen) (h : Reads expr ts e (u :: rest))
    (hclose : u.kind = .rightParen) : Reads (primary expr) (t :: ts) e rest := by
  obtain ⟨kind, content, place⟩ := t
  obtain rfl : kind = .leftParen := hopen
  exact Reads.within _ (Reads.get fun ending trail => Reads.bind (Reads.advance _)
    (Reads.bind h (Reads.bind (Reads.expect hclose) (Reads.pure e))))

theorem reads_unsigned (hplus : ¬ Next .plus ts) (hminus : ¬ Next .minus ts)
    (h : Reads (primary expr) ts e rest) : Reads (unary expr) ts e rest :=
  Reads.within _ (Reads.bind (Reads.pass hplus) (Reads.bind (Reads.pass hminus) h))

theorem reads_plus {t : Token} (hk : t.kind = .plus) (h : Reads (primary expr) ts e rest) :
    Reads (unary expr) (t :: ts) e rest :=
  Reads.within _ (Reads.bind (Reads.accept hk) h)

theorem reads_minus {t : Token} (hk : t.kind = .minus) (h : Reads (primary expr) ts e rest) :
    Reads (unary expr) (t :: ts) (.binary .sub (.num 0) e) rest := by
  have hplus : ¬ Next .plus (t :: ts) := by simp [Next, hk]
  exact Reads.within _ (Reads.bind (Reads.pass hplus)
    (Reads.bind (Reads.accept hk) (Reads.bind h (Reads.pure _))))

end

section

variable {level : Level} {next : Parser Node} {ts mid rest : List Token}

theorem reads_chainRest_nil (hstops : level.Stops ts) (count : Nat) (left : Node) :
    Reads (chainRest level next count left) ts left ts := by
  cases count with
  | zero => exact Reads.pure left
  | succ count =>
    refine Reads.get fun ending trail => ?_
    have hnone : (Cursor.mk ts ending trail).kind?.bind level.operator? = none :=
      hstops level (by cases level <;> simp [Level.inward])
    rw [hnone]
    exact Reads.pure left

theorem reads_chainRest_cons {t : Token} {op : Operator} {count : Nat} {left right e : Node}
    (hop : level.operator? t.kind = some op) (hright : Reads next ts right mid)
    (h : Reads (chainRest level next count (.binary op left right)) mid e rest) :
    Reads (chainRest level next (count + 1) left) (t :: ts) e rest := by
  refine Reads.get fun ending trail => ?_
  have hsome : (Cursor.mk (t :: ts) ending trail).kind?.bind level.operator? = some op := hop
  rw [hsome]
  exact Reads.bind (Reads.advance t) (Reads.bind hright h)

theorem reads_chain {bound : Nat} {first e : Node} (hfirst : Reads next ts first mid)
    (h : Reads (chainRest level next bound first) mid e rest) :
    Reads (chain level bound next) ts e rest :=
  Reads.within _ (Reads.bind hfirst h)

end

section

variable {bound : Nat} {ts mid rest : List Token} {e : Node}

theorem reads_assign_plain (h : Reads (operation bound (expression bound)) ts e rest)
    (hnext : ¬ Next .assign rest) : Reads (assign (bound + 1)) ts e rest := by
  refine Reads.within _ (Reads.get fun _ _ => Reads.bind h (Reads.get fun ending trail => ?_))
  have hkind : ¬ (Cursor.mk rest ending trail).kind? = some .assign := hnext
  rw [if_neg hkind]
  exact Reads.pure e

theorem reads_assign {t : Token} {name : Text}
    (h : Reads (operation bound (expression bound)) ts (.ident name) (t :: mid))
    (hk : t.kind = .assign) (hvalue : Reads (assign bound) mid e rest) :
    Reads (assign (bound + 1)) ts (.binary .assign (.ident name) e) rest := by
  refine Reads.within _ (Reads.get fun ending trail => Reads.bind h (Reads.get fun _ _ => ?_))
  rw [if_pos (by simp [Cursor.kind?, hk])]
  exact Reads.bind (Reads.advance t) (Reads.bind hvalue (Reads.pure _))

end

mutual

theorem reads_of_primary {ts rest : List Token} {e : Node} (h : Primary ts e rest) {bound : Nat}
    (hbound : ts.length ≤ bound) : Reads (primary (expression bound)) ts e rest := by
  match h with
  | .number hk hne hall hsmall => exact reads_number hk (Text.readDecimal_small hne hall hsmall)
  | .name hk => exact reads_name hk
  | .parens hopen hinside hclose =>
    have hlt := Nat.lt_of_succ_le hbound
    exact reads_parens hopen (reads_of_expr hinside hlt (starts_cons _ (by simp [hclose]))) hclose

theorem reads_of_unary {ts rest : List Token} {e : Node} (h : Unary ts e rest) {bound : Nat}
    (hbound : ts.length ≤ bound) : Reads (unary (expression bound)) ts e rest := by
  match h with
  | .plain h =>
    exact reads_unsigned (h.starts.not_next (by decide)) (h.starts.not_next (by decide))
      (reads_of_primary h hbound)
  | .plus hk h => exact reads_plus hk (reads_of_primary h (Nat.le_of_succ_le hbound))
  | .minus hk h => exact reads_minus hk (reads_of_primary h (Nat.le_of_succ_le hbound))

theorem reads_of_operand {level : Level} {ts rest : List Token} {e : Node}
    (h : Operand level ts e rest) {bound : Nat} (hbound : ts.length ≤ bound)
    (hstops : ∀ inner, level.inner? = some inner → inner.Stops rest) :
    Reads (level.operandReader bound (expression bound)) ts e rest := by
  match h with
  | .chain hinner h =>
    rw [Level.operandReader_inner hinner]
    exact reads_of_chain h hbound (hstops _ hinner)
  | .unary hinner h =>
    rw [Level.operandReader_innermost hinner]
    exact reads_of_unary h hbound

theorem reads_of_tail {level : Level} {ts rest : List Token} {steps : List (Operator × Node)}
    (h : Tail level ts steps rest) {bound : Nat} (hbound : ts.length ≤ bound)
    (hstops : level.Stops rest) {count : Nat} (hcount : steps.length ≤ count) (left : Node) :
    Reads (chainRest level (level.operandReader bound (expression bound)) count left) ts
      (leftward left steps) rest := by
  match h with
  | .nil => exact reads_chainRest_nil hstops count left
  | .cons hop hoperand htail =>
    obtain ⟨count, rfl⟩ : ∃ k, count = k + 1 := ⟨count - 1, by rw [List.length_cons] at hcount; omega⟩
    have hbound' := Nat.le_of_succ_le hbound
    exact reads_chainRest_cons (connects_iff.1 hop)
      (reads_of_operand hoperand hbound' (stops_of_tail htail hstops))
      (reads_of_tail htail (Nat.le_of_lt (Nat.lt_of_lt_of_le hoperand.length_lt hbound')) hstops
        (Nat.le_of_succ_le_succ hcount) _)

theorem reads_of_chain {level : Level} {ts rest : List Token} {e : Node}
    (h : Chain level ts e rest) {bound : Nat} (hbound : ts.length ≤ bound)
    (hstops : level.Stops rest) :
    Reads (chain level bound (level.operandReader bound (expression bound))) ts e rest := by
  match h with
  | .fold hoperand htail =>
    have hbound' := Nat.le_of_lt (Nat.lt_of_lt_of_le hoperand.length_lt hbound)
    have hcount := Nat.le_trans (Nat.le_trans (Nat.le_add_left _ _) htail.length_le) hbound'
    exact reads_chain (reads_of_operand hoperand hbound (stops_of_tail htail hstops))
      (reads_of_tail htail hbound' hstops hcount _)

theorem reads_of_assign {ts rest : List Token} {e : Node} (h : Assign ts e rest) {bound : Nat}
    (hbound : ts.length < bound) (hcloses : Closes rest) : Reads (assign bound) ts e rest := by
  obtain ⟨bound, rfl⟩ : ∃ k, bound = k + 1 := ⟨bound - 1, by omega⟩
  have hbound' := Nat.le_of_lt_succ hbound
  match h with
  | .plain h =>
    exact reads_assign_plain (reads_of_chain h hbound' hcloses.stops) (hcloses.not_next (by decide))
  | .assign htarget hk hvalue =>
    have hlt := htarget.length_lt
    rw [List.length_cons] at hlt
    exact reads_assign (reads_of_chain htarget hbound' (stops_assign hk)) hk
      (reads_of_assign hvalue (by omega) hcloses)

theorem reads_of_expr {ts rest : List Token} {e : Node} (h : Expr ts e rest) {bound : Nat}
    (hbound : ts.length < bound) (hcloses : Closes rest) :
    Reads (expression bound) ts e rest := by
  match h with
  | .assign h => exact Reads.within _ (reads_of_assign h hbound hcloses)

end

/-! ## Statements -/

section

variable {bound : Nat} {ts rest : List Token} {e : Node} {k : Token.Kind}

theorem reads_of_exprThen {t : Token} (h : Expr ts e (t :: rest)) (hk : t.kind = k)
    (hcloser : k ∈ [Token.Kind.rightParen, .semicolon]) (hbound : ts.length < bound) :
    Reads (expressionThen bound k) ts e rest := by
  have hcloses : Closes (t :: rest) := starts_cons _ (hk ▸ hcloser)
  exact Reads.bind (reads_of_expr h hbound hcloses) (Reads.bind (Reads.expect hk) (Reads.pure e))

theorem reads_of_clause {o : Option Node} (h : Clause k ts o rest)
    (hcloser : k ∈ [Token.Kind.rightParen, .semicolon]) (hbound : ts.length < bound) :
    Reads (clause bound k) ts o rest := by
  cases h with
  | omitted hk => exact Reads.bind (Reads.accept hk) (Reads.pure none)
  | given h hk =>
    have hpass : ¬ Next k ts := by
      refine h.starts.not_next ?_
      simp only [List.mem_cons, List.not_mem_nil, or_false] at hcloser
      rcases hcloser with rfl | rfl <;> decide
    exact Reads.bind (Reads.pass hpass)
      (Reads.bind (reads_of_exprThen h hk hcloser hbound) (Reads.pure _))

theorem reads_of_condition (h : Condition k ts e rest) (hbound : ts.length < bound) :
    Reads (condition bound) ts e rest := by
  cases h with
  | parens _ hopen h hclose =>
    simp only [List.length_cons] at hbound
    exact Reads.bind (Reads.advance _) (Reads.bind (Reads.expect hopen)
      (reads_of_exprThen h hclose (by simp) (by omega)))

end

section

variable {bound : Nat} {ts mid rest : List Token} {test n : Node}

theorem reads_statement_expr (hstarts : Starts exprKinds ts)
    (h : Reads (expressionThen (bound + 1) .semicolon) ts n rest) :
    Reads (statement (bound + 1)) ts n rest := by
  refine Reads.within _ (Reads.get fun ending trail => ?_)
  obtain ⟨k, hk, hnext⟩ := hstarts
  have hkind : (Cursor.mk ts ending trail).kind? = some k := hnext
  rw [hkind]
  simp only [exprKinds, primaryKinds, List.cons_append, List.nil_append, List.mem_cons,
    List.not_mem_nil, or_false] at hk
  rcases hk with rfl | rfl | rfl | rfl | rfl <;> exact h

theorem reads_statement_ret {t : Token} (hk : t.kind = .returnWord)
    (h : Reads (expressionThen (bound + 1) .semicolon) ts n rest) :
    Reads (statement (bound + 1)) (t :: ts) (.ret n) rest := by
  refine Reads.within _ (Reads.get fun ending trail => ?_)
  have hkind : (Cursor.mk (t :: ts) ending trail).kind? = some .returnWord := by
    simp [Cursor.kind?, hk]
  rw [hkind]
  exact Reads.bind (Reads.advance t) (Reads.bind h (Reads.pure _))

theorem reads_statement_if {yes : Node} (hnext : Next .ifWord ts)
    (htest : Reads (condition (bound + 1)) ts test mid)
    (hyes : Reads (statement bound) mid yes rest) (hend : ¬ Next .elseWord rest) :
    Reads (statement (bound + 1)) ts (.cond test yes none) rest := by
  refine Reads.within _ (Reads.get fun ending trail => ?_)
  have hkind : (Cursor.mk ts ending trail).kind? = some .ifWord := hnext
  rw [hkind]
  exact Reads.bind htest (Reads.bind hyes (Reads.bind (Reads.pass hend) (Reads.pure _)))

theorem reads_statement_ifElse {t : Token} {mid' : List Token} {yes no : Node}
    (hnext : Next .ifWord ts) (htest : Reads (condition (bound + 1)) ts test mid)
    (hyes : Reads (statement bound) mid yes (t :: mid')) (hk : t.kind = .elseWord)
    (hno : Reads (statement bound) mid' no rest) :
    Reads (statement (bound + 1)) ts (.cond test yes (some no)) rest := by
  refine Reads.within _ (Reads.get fun ending trail => ?_)
  have hkind : (Cursor.mk ts ending trail).kind? = some .ifWord := hnext
  rw [hkind]
  exact Reads.bind htest (Reads.bind hyes (Reads.bind (Reads.accept hk)
    (Reads.bind hno (Reads.pure _))))

theorem reads_statement_loop {body : Node} (hnext : Next .whileWord ts)
    (htest : Reads (condition (bound + 1)) ts test mid)
    (hbody : Reads (statement bound) mid body rest) :
    Reads (statement (bound + 1)) ts (.loop test body) rest := by
  refine Reads.within _ (Reads.get fun ending trail => ?_)
  have hkind : (Cursor.mk ts ending trail).kind? = some .whileWord := hnext
  rw [hkind]
  exact Reads.bind htest (Reads.bind hbody (Reads.pure _))

theorem reads_statement_iter {t u : Token} {ts₁ ts₂ ts₃ : List Token} {init test step : Option Node}
    {body : Node} (hk : t.kind = .forWord) (hopen : u.kind = .leftParen)
    (hinit : Reads (clause (bound + 1) .semicolon) ts init ts₁)
    (htest : Reads (clause (bound + 1) .semicolon) ts₁ test ts₂)
    (hstep : Reads (clause (bound + 1) .rightParen) ts₂ step ts₃)
    (hbody : Reads (statement bound) ts₃ body rest) :
    Reads (statement (bound + 1)) (t :: u :: ts) (.iter init test step body) rest := by
  refine Reads.within _ (Reads.get fun ending trail => ?_)
  have hkind : (Cursor.mk (t :: u :: ts) ending trail).kind? = some .forWord := by
    simp [Cursor.kind?, hk]
  rw [hkind]
  exact Reads.bind (Reads.advance t) (Reads.bind (Reads.expect hopen) (Reads.bind hinit
    (Reads.bind htest (Reads.bind hstep (Reads.bind hbody (Reads.pure _))))))

theorem reads_statement_block {t : Token} {body : List Node} (hk : t.kind = .leftBrace)
    (h : Reads (blockRest (statement bound) bound) ts body rest) :
    Reads (statement (bound + 1)) (t :: ts) (.block body) rest := by
  refine Reads.within _ (Reads.get fun ending trail => ?_)
  have hkind : (Cursor.mk (t :: ts) ending trail).kind? = some .leftBrace := by
    simp [Cursor.kind?, hk]
  rw [hkind]
  exact Reads.within _ (Reads.bind (Reads.advance t) (Reads.bind h (Reads.pure _)))

theorem reads_blockRest_cons {stmt : Parser Node} {count : Nat} {ns : List Node}
    (hstarts : Starts stmtKinds ts) (hfirst : Reads stmt ts n mid)
    (hothers : Reads (blockRest stmt count) mid ns rest) :
    Reads (blockRest stmt (count + 1)) ts (n :: ns) rest := by
  refine Reads.bind (Reads.pass (hstarts.not_next (by decide))) (Reads.get fun ending trail => ?_)
  rw [if_neg ?_]
  · exact Reads.bind hfirst (Reads.bind hothers (Reads.pure _))
  · intro hempty
    obtain ⟨k, -, hnext⟩ := hstarts
    obtain rfl : ts = [] := List.isEmpty_iff.1 hempty
    cases hnext

end

mutual

theorem reads_of_stmt {ts rest : List Token} {n : Node} (h : Stmt ts n rest) {bound : Nat}
    (hbound : ts.length < bound) : Reads (statement bound) ts n rest := by
  obtain ⟨bound, rfl⟩ : ∃ k, bound = k + 1 := ⟨bound - 1, by omega⟩
  match h with
  | .expr h hk =>
    exact reads_statement_expr h.starts (reads_of_exprThen h hk (by simp) hbound)
  | .ret hword h hk =>
    exact reads_statement_ret hword (reads_of_exprThen h hk (by simp) (Nat.lt_of_succ_lt hbound))
  | .ifOnly hcondition hyes hend =>
    have hlt := hcondition.length_lt
    exact reads_statement_if hcondition.starts (reads_of_condition hcondition hbound)
      (reads_of_stmt hyes (by omega)) hend
  | .ifElse hcondition hyes hword hno =>
    have hlt := hcondition.length_lt
    have hlt' := hyes.length_lt
    rw [List.length_cons] at hlt'
    exact reads_statement_ifElse hcondition.starts (reads_of_condition hcondition hbound)
      (reads_of_stmt hyes (by omega)) hword (reads_of_stmt hno (by omega))
  | .loop hcondition hbody =>
    have hlt := hcondition.length_lt
    exact reads_statement_loop hcondition.starts (reads_of_condition hcondition hbound)
      (reads_of_stmt hbody (by omega))
  | .iter hword hopen hinit htest hstep hbody =>
    have h₁ := hinit.length_lt
    have h₂ := htest.length_lt
    have h₃ := hstep.length_lt
    simp only [List.length_cons] at hbound
    exact reads_statement_iter hword hopen (reads_of_clause hinit (by simp) (by omega))
      (reads_of_clause htest (by simp) (by omega)) (reads_of_clause hstep (by simp) (by omega))
      (reads_of_stmt hbody (by omega))
  | .block hopen hbody hclose =>
    have hle := hbody.length_le
    simp only [List.length_cons] at hbound hle
    exact reads_statement_block hopen
      (reads_of_block hbody ⟨_, hclose, rfl⟩ (by omega) (by omega))

/-- A block is read up to the brace that closes it. -/
theorem reads_of_block {ts mid rest : List Token} {ns : List Node} (h : Stmts ts ns mid)
    (hclose : Took .rightBrace mid rest) {bound count : Nat} (hbound : ts.length < bound)
    (hcount : ns.length < count) : Reads (blockRest (statement bound) count) ts ns rest := by
  obtain ⟨count, rfl⟩ : ∃ k, count = k + 1 := ⟨count - 1, by omega⟩
  match h with
  | .nil =>
    obtain ⟨u, hu, rfl⟩ := hclose
    exact Reads.bind (Reads.accept hu) (Reads.pure [])
  | .cons hfirst hothers =>
    have hlt := hfirst.length_lt
    exact reads_blockRest_cons hfirst.starts (reads_of_stmt hfirst hbound)
      (reads_of_block hothers hclose (by omega) (Nat.lt_of_succ_lt_succ hcount))

end

theorem reads_of_stmts {ts : List Token} {ns : List Node} {bound : Nat} :
    ∀ {count : Nat}, Stmts ts ns [] → ts.length < bound → ns.length < count →
      Reads (statements bound count) ts ns [] := by
  intro count h hbound hcount
  induction ns generalizing ts count with
  | nil =>
    cases h
    obtain ⟨count, rfl⟩ : ∃ k, count = k + 1 := ⟨count - 1, by omega⟩
    exact Reads.get fun _ _ => Reads.pure []
  | cons n ns ih =>
    obtain ⟨count, rfl⟩ : ∃ k, count = k + 1 := ⟨count - 1, by omega⟩
    cases h with
    | cons hfirst hothers =>
      have hlt := hfirst.length_lt
      refine Reads.get fun ending trail => ?_
      rw [if_neg ?_]
      · exact Reads.bind (reads_of_stmt hfirst hbound)
          (Reads.bind (ih hothers (by omega) (Nat.lt_of_succ_lt_succ hcount)) (Reads.pure _))
      · intro hempty
        obtain rfl : ts = [] := List.isEmpty_iff.1 hempty
        exact Nat.not_lt_zero _ hlt

end Parser

open Grammar

/-- Tokens that spell a program are read as that program. -/
theorem ofTokens_of_spells {tokens : Tokens} {p : Program} (h : Spells tokens p) :
    Program.ofTokens tokens = .ok p := by
  have hle : p.length ≤ tokens.body.length := by
    have := Stmts.length_le h
    rw [List.length_nil] at this
    omega
  have hreads : Parser.Reads (Parser.program tokens.bound) tokens.body p [] :=
    Parser.Reads.within _ (Parser.reads_of_stmts h (Nat.lt_succ_self _) (Nat.lt_succ_of_le hle))
  have hread : tokens.readProgram = .ok p ⟨[], tokens.ending, []⟩ := hreads tokens.ending []
  rw [Program.ofTokens, hread]

/-- The parser accepts what the grammar derives, with the tree of the
derivation. -/
theorem ofTokens_eq_ok_iff {tokens : Tokens} {p : Program}
    (hproper : ∀ t ∈ tokens.body, t.Proper) :
    Program.ofTokens tokens = .ok p ↔ Spells tokens p :=
  ⟨spells_of_ofTokens hproper, ofTokens_of_spells⟩

/-- A source is read in two steps. -/
theorem exists_tokens_of_parse {source : Text} {p : Program} (h : Program.parse source = .ok p) :
    ∃ tokens, Token.scan source = .ok tokens ∧ Program.ofTokens tokens = .ok p := by
  unfold Program.parse at h
  split at h
  · cases h
  · next tokens hscan => exact ⟨tokens, hscan, h⟩

/-- Reading a program from scanned tokens succeeds with a tree exactly when the
grammar derives that tree from all of the tokens, and there is one such tree at
most. -/
theorem scanned_program_iff_spelled {source : Text} {tokens : Tokens}
    (h : Token.scan source = .ok tokens) (p : Program) :
    (Program.ofTokens tokens = .ok p ↔ Spells tokens p) ∧
      ∀ q, Spells tokens p → Spells tokens q → p = q := by
  refine ⟨ofTokens_eq_ok_iff (Token.proper_of_scan h), ?_⟩
  intro q hp hq
  have heq := (ofTokens_of_spells hp).symm.trans (ofTokens_of_spells hq)
  exact Except.ok.inj heq

/-- The `else` goes to the inner `if`, and `(a)` and `+b` are targets. -/
theorem spelled_nearest_else :
    ∃ tokens, Token.scan (utf8 "if(x)if(y)(a)=-1;else +b=2;") = .ok tokens ∧
      Spells tokens [.cond (.ident (utf8 "x"))
        (.cond (.ident (utf8 "y"))
          (.binary .assign (.ident (utf8 "a")) (.binary .sub (.num 0) (.num 1)))
          (some (.binary .assign (.ident (utf8 "b")) (.num 2)))) none] := by
  obtain ⟨tokens, hscan, hread⟩ := exists_tokens_of_parse (by cbv :
    Program.parse (utf8 "if(x)if(y)(a)=-1;else +b=2;") = .ok [.cond (.ident (utf8 "x"))
        (.cond (.ident (utf8 "y"))
          (.binary .assign (.ident (utf8 "a")) (.binary .sub (.num 0) (.num 1)))
          (some (.binary .assign (.ident (utf8 "b")) (.num 2)))) none])
  exact ⟨tokens, hscan, (scanned_program_iff_spelled hscan _).1.1 hread⟩

end WordC
