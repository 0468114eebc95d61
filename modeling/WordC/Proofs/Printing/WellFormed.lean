import WordC.Proofs.Scan
import WordC.Proofs.Grammar
/-!
The trees that the grammar can spell.

A tree may hold a statement where a value belongs, a negative literal or an
operator with no spelling.  `isWellFormed` is what is left without those, and one
condition more: a statement in front of `else` must not be open, for the `else`
would go to the `if` at its end.
-/

namespace WordC

/-- A name of the source language that is no keyword. -/
def Text.isName (t : Text) : Bool := t.isSymbolName && Token.wordKind t == .name

namespace Node

def isIdent : Node → Bool
  | ident _ => true
  | _ => false

/-- An expression with a spelling. -/
def isValue : Node → Bool
  | num value => 0 ≤ value
  | ident name => name.isName
  | binary op left right =>
    decide (op ∈ Operator.all) && (op != .assign || left.isIdent) && left.isValue && right.isValue
  | _ => false

/-- The clause of a `for` may be left out. -/
def isClause : Option Node → Bool
  | none => true
  | some n => n.isValue

/-- The statement ends in an `if` without `else`. -/
def isOpen : Node → Bool
  | cond _ _ none => true
  | cond _ _ (some no) => no.isOpen
  | loop _ body => body.isOpen
  | iter _ _ _ body => body.isOpen
  | _ => false

mutual

/-- A statement with a spelling. -/
def isWellFormed : Node → Bool
  | ret value => value.isValue
  | cond test yes none => test.isValue && yes.isWellFormed
  | cond test yes (some no) =>
    test.isValue && yes.isWellFormed && !yes.isOpen && no.isWellFormed
  | loop test body => test.isValue && body.isWellFormed
  | iter init test step body =>
    isClause init && isClause test && isClause step && body.isWellFormed
  | block body => areWellFormed body
  | n => n.isValue

def areWellFormed : List Node → Bool
  | [] => true
  | n :: rest => n.isWellFormed && areWellFormed rest

end

/-- The parts of a well-formed statement are well formed. -/
theorem isWellFormed_cond {test yes : Node} {no : Option Node}
    (h : (cond test yes no).isWellFormed = true) :
    test.isValue = true ∧ yes.isWellFormed = true ∧ ∀ n ∈ no, n.isWellFormed = true := by
  cases no with
  | none =>
    rw [isWellFormed, Bool.and_eq_true] at h
    exact ⟨h.1, h.2, nofun⟩
  | some no =>
    simp only [isWellFormed, Bool.and_eq_true] at h
    refine ⟨h.1.1.1, h.1.1.2, fun n hn => ?_⟩
    rw [← Option.some.inj hn]
    exact h.2

theorem isValue_binary {op : Operator} {left right : Node}
    (h : (binary op left right).isValue = true) :
    op ∈ Operator.all ∧ (op = .assign → left.isIdent = true) ∧ left.isValue = true ∧
      right.isValue = true := by
  simp only [isValue, Bool.and_eq_true, decide_eq_true_eq, Bool.or_eq_true, bne_iff_ne] at h
  exact ⟨h.1.1.1, fun hassign => h.1.1.2.resolve_left fun hne => hne hassign, h.1.2, h.2⟩

/-- Induction over the expressions with a spelling: an assignment has a name on its
left. -/
theorem isValue_induction {motive : (e : Node) → e.isValue = true → Prop}
    (num : ∀ value h, motive (.num value) h) (ident : ∀ name h, motive (.ident name) h)
    (assign : ∀ name right h hright, motive right hright →
      motive (.binary .assign (.ident name) right) h)
    (binary : ∀ op left right h hleft hright, op ∈ Operator.all → op ≠ .assign →
      motive left hleft → motive right hright → motive (.binary op left right) h)
    (e : Node) (h : e.isValue = true) : motive e h := by
  match e with
  | .num value => exact num value h
  | .ident name => exact ident name h
  | .binary op left right =>
    obtain ⟨hop, hassign, hleft, hright⟩ := isValue_binary h
    have ihright := isValue_induction num ident assign binary right hright
    by_cases heq : op = .assign
    · subst heq
      cases left with
      | ident name => exact assign name right h hright ihright
      | _ => exact absurd (hassign rfl) (by simp [isIdent])
    · have ihleft := isValue_induction num ident assign binary left hleft
      exact binary op left right h hleft hright hop heq ihleft ihright
  | .ret _ | .cond _ _ _ | .loop _ _ | .iter _ _ _ _ | .block _ => cases h

theorem isWellFormed_of_isValue {e : Node} (h : e.isValue = true) : e.isWellFormed = true := by
  cases e with
  | num _ | ident _ | binary _ _ _ => exact h
  | ret _ | cond _ _ _ | loop _ _ | iter _ _ _ _ | block _ => cases h

theorem isWellFormed_of_isClause {o : Option Node} (h : isClause o = true) :
    ∀ n ∈ o, n.isWellFormed = true := by
  intro n hn
  rw [hn] at h
  exact isWellFormed_of_isValue h

end Node

/-- Every statement of the program has a spelling. -/
def Program.isWellFormed (p : Program) : Bool := Node.areWellFormed p

namespace Grammar

open WordC.Parser Node

/-- Every token has the content of its kind. -/
def AllProper (ts : List Token) : Prop := ∀ t ∈ ts, t.Proper

theorem AllProper.head {t : Token} {ts : List Token} (h : AllProper (t :: ts)) : t.Proper :=
  h t List.mem_cons_self

theorem AllProper.tail {t : Token} {ts : List Token} (h : AllProper (t :: ts)) : AllProper ts :=
  fun u hu => h u (List.mem_cons_of_mem t hu)

theorem isValue_of_isIdent {name : Text} {e : Node} (hname : (ident name).isValue = true)
    (he : e.isValue = true) : (binary .assign (ident name) e).isValue = true := by
  have hknown : Operator.assign ∈ Operator.all := by decide
  have hname' : name.isName = true := hname
  simp [isValue, isIdent, hname', he, hknown]

/-- An operator of a level and its right operand keep a value a value. -/
def StepOk (step : Operator × Node) : Prop :=
  step.1 ∈ Operator.all ∧ step.1 ≠ .assign ∧ step.2.isValue = true

theorem isValue_leftward {first : Node} {steps : List (Operator × Node)}
    (hfirst : first.isValue = true) (hsteps : ∀ step ∈ steps, StepOk step) :
    (leftward first steps).isValue = true := by
  induction steps generalizing first with
  | nil => exact hfirst
  | cons step steps ih =>
    obtain ⟨hop, hassign, hright⟩ := hsteps step List.mem_cons_self
    refine ih ?_ fun step' h => hsteps step' (List.mem_cons_of_mem step h)
    simp [isValue, hfirst, hright, hassign, hop]

theorem connects_known {level : Level} {k : Token.Kind} {op : Operator}
    (h : Connects level k op) : op ∈ Operator.all ∧ op ≠ .assign := by
  cases h <;> decide

theorem num_isValue {n : Nat} (h : n ≤ 9223372036854775807) :
    (num (Int64.ofNat n)).isValue = true := by
  have hint : (Int64.ofNat n).toInt = n := Int64.toInt_ofNat_of_lt (by omega)
  have hle : (0 : Int64) ≤ Int64.ofNat n := by
    rw [Int64.le_iff_toInt_le, hint]
    exact Int.natCast_nonneg n
  simpa [isValue] using hle

mutual

theorem Primary.isValue {ts rest : List Token} {e : Node} (h : Primary ts e rest)
    (hts : AllProper ts) : e.isValue = true ∧ AllProper rest := by
  match h with
  | .number _ _ _ hle => exact ⟨num_isValue hle, hts.tail⟩
  | .name hk =>
    obtain ⟨hsymbol, hkind⟩ := hts.head.name hk
    exact ⟨by simp [Node.isValue, Text.isName, hsymbol, hkind], hts.tail⟩
  | .parens _ hinside _ =>
    obtain ⟨hvalue, hrest⟩ := hinside.isValue hts.tail
    exact ⟨hvalue, hrest.tail⟩

theorem Unary.isValue {ts rest : List Token} {e : Node} (h : Unary ts e rest)
    (hts : AllProper ts) : e.isValue = true ∧ AllProper rest := by
  match h with
  | .plain h => exact h.isValue hts
  | .plus _ h => exact h.isValue hts.tail
  | .minus _ h =>
    obtain ⟨hvalue, hrest⟩ := h.isValue hts.tail
    refine ⟨?_, hrest⟩
    simp only [Node.isValue, hvalue, Bool.and_true]
    decide

theorem Operand.isValue {level : Level} {ts rest : List Token} {e : Node}
    (h : Operand level ts e rest) (hts : AllProper ts) : e.isValue = true ∧ AllProper rest := by
  match h with
  | .chain _ h => exact h.isValue hts
  | .unary _ h => exact h.isValue hts

theorem Tail.stepOk {level : Level} {ts rest : List Token} {steps : List (Operator × Node)}
    (h : Tail level ts steps rest) (hts : AllProper ts) :
    (∀ step ∈ steps, StepOk step) ∧ AllProper rest := by
  match h with
  | .nil => exact ⟨by simp, hts⟩
  | .cons hop hoperand htail =>
    obtain ⟨hvalue, hmid⟩ := hoperand.isValue hts.tail
    obtain ⟨hsteps, hrest⟩ := htail.stepOk hmid
    obtain ⟨hknown, hassign⟩ := connects_known hop
    exact ⟨List.forall_mem_cons.2 ⟨⟨hknown, hassign, hvalue⟩, hsteps⟩, hrest⟩

theorem Chain.isValue {level : Level} {ts rest : List Token} {e : Node}
    (h : Chain level ts e rest) (hts : AllProper ts) : e.isValue = true ∧ AllProper rest := by
  match h with
  | .fold hoperand htail =>
    obtain ⟨hvalue, hmid⟩ := hoperand.isValue hts
    obtain ⟨hsteps, hrest⟩ := htail.stepOk hmid
    exact ⟨isValue_leftward hvalue hsteps, hrest⟩

theorem Assign.isValue {ts rest : List Token} {e : Node} (h : Assign ts e rest)
    (hts : AllProper ts) : e.isValue = true ∧ AllProper rest := by
  match h with
  | .plain h => exact h.isValue hts
  | .assign htarget _ hright =>
    obtain ⟨hname, hmid⟩ := htarget.isValue hts
    obtain ⟨hvalue, hrest⟩ := hright.isValue hmid.tail
    exact ⟨isValue_of_isIdent hname hvalue, hrest⟩

theorem Expr.isValue {ts rest : List Token} {e : Node} (h : Expr ts e rest)
    (hts : AllProper ts) : e.isValue = true ∧ AllProper rest := by
  match h with
  | .assign h => exact h.isValue hts

end

theorem Clause.isClause {k : Token.Kind} {ts rest : List Token} {o : Option Node}
    (h : Clause k ts o rest) (hts : AllProper ts) : isClause o = true ∧ AllProper rest := by
  match h with
  | .omitted _ => exact ⟨rfl, hts.tail⟩
  | .given h _ =>
    obtain ⟨hvalue, hrest⟩ := h.isValue hts
    exact ⟨hvalue, hrest.tail⟩

theorem Condition.isValue {k : Token.Kind} {ts rest : List Token} {e : Node}
    (h : Condition k ts e rest) (hts : AllProper ts) : e.isValue = true ∧ AllProper rest := by
  match h with
  | .parens _ _ h _ =>
    obtain ⟨hvalue, hrest⟩ := h.isValue hts.tail.tail
    exact ⟨hvalue, hrest.tail⟩

theorem not_isOpen_of_isValue {e : Node} (h : e.isValue = true) : ¬ e.isOpen = true := by
  cases e with
  | num _ | ident _ | binary _ _ _ => exact Bool.false_ne_true
  | ret _ | cond _ _ _ | loop _ _ | iter _ _ _ _ | block _ => cases h

mutual

/-- A derived statement is well formed, and no `else` stands behind an open one,
since it would be part of it. -/
theorem Stmt.isWellFormed {ts rest : List Token} {n : Node} (h : Stmt ts n rest)
    (hts : AllProper ts) :
    n.isWellFormed = true ∧ (n.isOpen = true → ¬ Next .elseWord rest) ∧ AllProper rest := by
  match h with
  | .expr h _ =>
    obtain ⟨hvalue, hrest⟩ := h.isValue hts
    exact ⟨isWellFormed_of_isValue hvalue, fun hopen => absurd hopen (not_isOpen_of_isValue hvalue),
      hrest.tail⟩
  | .ret _ h _ =>
    obtain ⟨hvalue, hrest⟩ := h.isValue hts.tail
    exact ⟨hvalue, nofun, hrest.tail⟩
  | .ifOnly htest hyes helse =>
    obtain ⟨htest, hmid⟩ := htest.isValue hts
    obtain ⟨hyes, -, hrest⟩ := hyes.isWellFormed hmid
    exact ⟨by simp [Node.isWellFormed, htest, hyes], fun _ => helse, hrest⟩
  | .ifElse htest hyes helse hno =>
    obtain ⟨htest, hmid⟩ := htest.isValue hts
    obtain ⟨hyes, hopen, hmid'⟩ := hyes.isWellFormed hmid
    obtain ⟨hno, hopen', hrest⟩ := hno.isWellFormed hmid'.tail
    have hclosed : ¬ _ = true := fun h => hopen h (congrArg some helse)
    exact ⟨by simp [Node.isWellFormed, htest, hyes, hno, hclosed], hopen', hrest⟩
  | .loop htest hbody =>
    obtain ⟨htest, hmid⟩ := htest.isValue hts
    obtain ⟨hbody, hopen, hrest⟩ := hbody.isWellFormed hmid
    exact ⟨by simp [Node.isWellFormed, htest, hbody], hopen, hrest⟩
  | .iter _ _ hinit htest hstep hbody =>
    obtain ⟨hinit, h₁⟩ := hinit.isClause hts.tail.tail
    obtain ⟨htest, h₂⟩ := htest.isClause h₁
    obtain ⟨hstep, h₃⟩ := hstep.isClause h₂
    obtain ⟨hbody, hopen, hrest⟩ := hbody.isWellFormed h₃
    exact ⟨by simp [Node.isWellFormed, hinit, htest, hstep, hbody], hopen, hrest⟩
  | .block _ hbody _ =>
    obtain ⟨hbody, hrest⟩ := hbody.areWellFormed hts.tail
    exact ⟨hbody, nofun, hrest.tail⟩

theorem Stmts.areWellFormed {ts rest : List Token} {ns : List Node} (h : Stmts ts ns rest)
    (hts : AllProper ts) : areWellFormed ns = true ∧ AllProper rest := by
  match h with
  | .nil => exact ⟨rfl, hts⟩
  | .cons hfirst hothers =>
    obtain ⟨hfirst, -, hmid⟩ := hfirst.isWellFormed hts
    obtain ⟨hothers, hrest⟩ := hothers.areWellFormed hmid
    exact ⟨by simp [Node.areWellFormed, hfirst, hothers], hrest⟩

end
end Grammar
end WordC
