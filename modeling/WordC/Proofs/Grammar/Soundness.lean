import WordC.Proofs.Grammar
import WordC.Proofs.Scan
import WordC.Proofs.Sequence
import WordC.Proofs.Text.Number
/-!
What the parser accepts, the grammar derives.

A reader that succeeds leaves the ending and the trail of its cursor alone, so
its success is a relation between the tokens it found, its result and the tokens
it left.  `Sound` says that this relation is contained in a given one, and the
grammar's relations are put together along the parser's own steps.
-/

namespace WordC
namespace Parser

/-- Where the reader succeeds on proper tokens, the cursor has moved over some of
them and nothing else, and what was read stands in the relation `R`. -/
def Sound {α : Type} (p : Parser α) (R : List Token → α → List Token → Prop) : Prop :=
  ∀ ⦃c : Cursor⦄ ⦃a : α⦄ ⦃c' : Cursor⦄, (∀ t ∈ c.rest, t.Proper) → p c = .ok a c' →
    ∃ rest, c' = { c with rest := rest } ∧ rest <:+ c.rest ∧ R c.rest a rest

namespace Sound

variable {α β : Type} {R S : List Token → α → List Token → Prop}

theorem mono {p : Parser α} (h : Sound p R)
    (hRS : ∀ ts a rest, (∀ t ∈ ts, t.Proper) → R ts a rest → S ts a rest) : Sound p S := by
  intro c a c' hc hp
  obtain ⟨rest, hc', hsuffix, hR⟩ := h hc hp
  exact ⟨rest, hc', hsuffix, hRS _ _ _ hc hR⟩

theorem pure (a : α) : Sound (pure a) (fun ts b rest => b = a ∧ rest = ts) := by
  intro c b c' _ h
  cases h
  exact ⟨c.rest, rfl, List.suffix_rfl, rfl, rfl⟩

theorem bind {p : Parser α} {f : α → Parser β} {T : α → List Token → β → List Token → Prop}
    (hp : Sound p R) (hf : ∀ a, Sound (f a) (T a)) :
    Sound (p >>= f) (fun ts b rest => ∃ a mid, R ts a mid ∧ T a mid b rest) := by
  intro c b c' hc h
  obtain ⟨a, m, hm, h⟩ := bind_ok h
  obtain ⟨mid, rfl, hmid, hR⟩ := hp hc hm
  obtain ⟨rest, rfl, hrest, hT⟩ := hf a (fun t ht => hc t (hmid.subset ht)) h
  exact ⟨rest, rfl, hrest.trans hmid, a, mid, hR, hT⟩

/-- Reading the cursor: what follows may depend on the tokens there. -/
theorem get {f : Cursor → Parser β} {S : List Token → β → List Token → Prop}
    (hf : ∀ c, Sound (f c) (fun ts b rest => ts = c.rest → S ts b rest)) :
    Sound (EStateM.get >>= f) S := by
  intro c b c' hc h
  obtain ⟨rest, hc', hsuffix, hS⟩ := hf c hc h
  exact ⟨rest, hc', hsuffix, hS rfl⟩

theorem fail {cause : Rejection.Cause} : Sound (fail cause) R := by
  intro c a c' _ h
  cases h

theorem failAt {spot : Cursor} {cause : Rejection.Cause} : Sound (failAt spot cause) R := by
  intro c a c' _ h
  cases h

theorem within {p : Parser α} (production : Production) (h : Sound p R) :
    Sound (within production p) R := by
  intro c a c' hc hp
  unfold Parser.within at hp
  split at hp
  · next b m hm =>
    obtain ⟨rest, rfl, hsuffix, hR⟩ := h (c := { c with trail := production :: c.trail }) hc hm
    cases hp
    exact ⟨rest, rfl, hsuffix, hR⟩
  · cases hp

theorem advance : Sound advance (fun ts _ rest => rest = ts.tail) := by
  intro c a c' _ h
  cases h
  exact ⟨c.rest.tail, rfl, List.tail_suffix c.rest, rfl⟩

end Sound

open Grammar

/-- One token of kind `k` was read. -/
def Took (k : Token.Kind) (ts rest : List Token) : Prop := ∃ t : Token, t.kind = k ∧ ts = t :: rest

theorem took_of_next {k : Token.Kind} {ts : List Token} (h : Next k ts) : Took k ts ts.tail := by
  cases ts with
  | nil => simp [Next] at h
  | cons t rest => exact ⟨t, by simpa [Next] using h, rfl⟩

theorem accept_sound (k : Token.Kind) :
    Sound (accept k) (fun ts b rest => if b then Took k ts rest else rest = ts ∧ ¬ Next k ts) := by
  refine Sound.get fun c => ?_
  split
  · next hk =>
    refine (Sound.bind Sound.advance fun _ => Sound.pure true).mono ?_
    rintro ts b rest - ⟨_, _, rfl, rfl, rfl⟩ rfl
    exact took_of_next hk
  · next hk =>
    refine (Sound.pure false).mono ?_
    rintro ts b rest - ⟨rfl, rfl⟩ rfl
    exact ⟨rfl, hk⟩

theorem expect_sound (k : Token.Kind) : Sound (expect k) (fun ts _ rest => Took k ts rest) := by
  have hrest : ∀ b : Bool,
      Sound (if !b then Parser.fail (.expected [.kind k]) else Pure.pure ())
        (fun ts (_ : Unit) rest => b = true ∧ rest = ts) := by
    intro b
    cases b
    · exact Sound.fail
    · refine (Sound.pure ()).mono ?_
      rintro ts _ rest - ⟨_, rfl⟩
      exact ⟨rfl, rfl⟩
  refine (Sound.bind (accept_sound k) hrest).mono ?_
  rintro ts _ rest - ⟨b, mid, h, rfl, rfl⟩
  exact h

/-! ## Expressions -/

theorem number_sound {t : Token} {rest : List Token} {value : Word} (ht : t.Proper)
    (hk : t.kind = .number) (h : Text.readDecimal t.content = .ok value) :
    Primary (t :: rest) (.num value) rest := by
  obtain ⟨hne, hall⟩ := ht.number hk
  rw [Text.readDecimal_digits hne hall, Text.applySign, if_neg (by simp), Word.ofInt?] at h
  split at h
  · next w hw =>
    split at hw
    · next hrange =>
      cases hw
      cases h
      have hsmall : Text.decimalValue t.content ≤ 9223372036854775807 := by
        have := hrange.2
        unfold Word.greatest at this
        omega
      exact Primary.number hk hne hall hsmall
    · cases hw
  · cases h

theorem primary_sound {expr : Parser Node} (hexpr : Sound expr Expr) :
    Sound (primary expr) Primary := by
  refine Sound.within _ (Sound.get fun c => ?_)
  split
  · next content place rest hc =>
    split
    · exact Sound.fail
    · next value hvalue =>
      refine (Sound.bind Sound.advance fun _ => Sound.pure (Node.num value)).mono ?_
      rintro ts n rest' hproper ⟨_, _, rfl, rfl, rfl⟩ rfl
      rw [hc] at hproper ⊢
      exact number_sound (hproper _ List.mem_cons_self) rfl hvalue
  · next content place rest hc =>
    refine (Sound.bind Sound.advance fun _ => Sound.pure (Node.ident content)).mono ?_
    rintro ts n rest' - ⟨_, _, rfl, rfl, rfl⟩ rfl
    rw [hc]
    exact Primary.name (t := ⟨.name, content, place⟩) rfl
  · next content place rest hc =>
    refine (Sound.bind Sound.advance fun _ => Sound.bind hexpr fun e =>
      Sound.bind (expect_sound .rightParen) fun _ => Sound.pure e).mono ?_
    rintro ts n rest' - ⟨_, _, rfl, e, _, hinside, _, _, ⟨u, hu, rfl⟩, rfl, rfl⟩ rfl
    rw [hc] at hinside ⊢
    exact Primary.parens rfl hinside hu
  · exact Sound.fail

theorem unary_sound {expr : Parser Node} (hexpr : Sound expr Expr) :
    Sound (unary expr) Unary := by
  have hprimary := primary_sound hexpr
  have hminus : ∀ b : Bool,
      Sound (if b then (primary expr >>= fun e => Pure.pure (.binary .sub (.num 0) e))
          else primary expr)
        (fun ts n rest => if b then ∃ e, Primary ts e rest ∧ n = .binary .sub (.num 0) e
          else Primary ts n rest) := by
    intro b
    cases b
    · exact hprimary
    · refine (Sound.bind hprimary fun e => Sound.pure _).mono ?_
      rintro ts n rest - ⟨e, _, he, rfl, rfl⟩
      exact ⟨e, he, rfl⟩
  refine Sound.within _ ((Sound.bind (accept_sound .plus)
    (T := fun b ts n rest => if b then Primary ts n rest else Unary ts n rest) fun b => ?_).mono ?_)
  · cases b
    · refine (Sound.bind (accept_sound .minus) hminus).mono ?_
      rintro ts n rest - ⟨b, mid, hsign, hoperand⟩
      cases b
      · obtain ⟨rfl, -⟩ := hsign
        exact Unary.plain hoperand
      · obtain ⟨t, ht, rfl⟩ := hsign
        obtain ⟨e, he, rfl⟩ := hoperand
        exact Unary.minus ht he
    · exact hprimary
  · rintro ts n rest - ⟨b, mid, hsign, hoperand⟩
    cases b
    · obtain ⟨rfl, -⟩ := hsign
      exact hoperand
    · obtain ⟨t, ht, rfl⟩ := hsign
      exact Unary.plus ht hoperand

theorem chainRest_sound {level : Level} {next : Parser Node} (hnext : Sound next (Operand level))
    (bound : Nat) (left : Node) :
    Sound (chainRest level next bound left)
      (fun ts n rest => ∃ steps, Tail level ts steps rest ∧ n = leftward left steps) := by
  induction bound generalizing left with
  | zero =>
    refine (Sound.pure left).mono ?_
    rintro ts n rest - ⟨rfl, rfl⟩
    exact ⟨[], Tail.nil, rfl⟩
  | succ bound ih =>
    refine Sound.get fun c => ?_
    split
    · refine (Sound.pure left).mono ?_
      rintro ts n rest - ⟨rfl, rfl⟩ -
      exact ⟨[], Tail.nil, rfl⟩
    · next op hop =>
      refine (Sound.bind Sound.advance fun _ => Sound.bind hnext fun right =>
        ih (.binary op left right)).mono ?_
      rintro ts n rest - ⟨_, _, rfl, right, mid, hright, steps, htail, rfl⟩ rfl
      obtain ⟨k, hk, hop⟩ := Option.bind_eq_some_iff.1 hop
      obtain ⟨t, rfl, hts⟩ := took_of_next hk
      rw [hts]
      exact ⟨(op, right) :: steps, Tail.cons (connects_iff.2 hop) hright htail, rfl⟩

theorem chain_sound (level : Level) {next : Parser Node} (hnext : Sound next (Operand level))
    (bound : Nat) : Sound (chain level bound next) (Chain level) := by
  refine Sound.within _ ((Sound.bind hnext fun first => chainRest_sound hnext bound first).mono ?_)
  rintro ts n rest - ⟨first, mid, hfirst, steps, htail, rfl⟩
  exact Chain.fold hfirst htail

theorem operation_sound {expr : Parser Node} (hexpr : Sound expr Expr) (bound : Nat) :
    Sound (operation bound expr) (Chain .equality) := by
  have hmul := chain_sound .mul
    ((unary_sound hexpr).mono fun _ _ _ _ h => Operand.unary rfl h) bound
  have hadd := chain_sound .add (hmul.mono fun _ _ _ _ h => Operand.chain rfl h) bound
  have hrelational := chain_sound .relational
    (hadd.mono fun _ _ _ _ h => Operand.chain rfl h) bound
  exact chain_sound .equality
    (hrelational.mono fun _ _ _ _ h => Operand.chain rfl h) bound

/-- What follows the first operand of an assignment. -/
def assignRest (bound : Nat) (spot : Cursor) (left : Node) : Parser Node := do
  if (← get).kind? = some .assign then
    match left with
    | .ident _ =>
      advance
      let right ← assign bound
      return .binary .assign left right
    | _ => failAt spot (.invalidTarget left)
  else return left

theorem assignRest_sound {bound : Nat} (h : Sound (assign bound) Assign) (spot : Cursor)
    (left : Node) :
    Sound (assignRest bound spot left) fun ts n rest => n = left ∧ rest = ts ∨
      ∃ name right t mid, left = .ident name ∧ n = .binary .assign left right ∧ ts = t :: mid ∧
        t.kind = .assign ∧ Assign mid right rest := by
  refine Sound.get fun c => ?_
  split
  · next hk =>
    split
    · next name =>
      refine (Sound.bind Sound.advance fun _ => Sound.bind h fun right => Sound.pure _).mono ?_
      rintro ts n rest - ⟨_, _, rfl, right, _, hright, rfl, rfl⟩ rfl
      obtain ⟨t, ht, hts⟩ := took_of_next hk
      exact .inr ⟨name, right, t, _, rfl, rfl, hts, ht, hright⟩
    · exact Sound.failAt
  · refine (Sound.pure left).mono ?_
    rintro ts n rest - ⟨rfl, rfl⟩ -
    exact .inl ⟨rfl, rfl⟩

theorem assign_sound (bound : Nat) : Sound (assign bound) Assign := by
  induction bound with
  | zero => exact Sound.fail
  | succ bound ih =>
    have hexpr : Sound (within .expr (assign bound)) Expr :=
      (Sound.within _ ih).mono fun _ _ _ _ h => Expr.assign h
    refine Sound.within _ (Sound.get fun spot => ?_)
    refine (Sound.bind (operation_sound hexpr bound) fun left => assignRest_sound ih spot left).mono ?_
    rintro ts n rest - ⟨left, mid, hleft, ⟨rfl, rfl⟩ | ⟨name, right, t, mid', rfl, rfl, rfl, ht, hright⟩⟩ -
    · exact Assign.plain hleft
    · exact Assign.assign hleft ht hright

theorem expression_sound (bound : Nat) : Sound (expression bound) Expr :=
  (Sound.within _ (assign_sound bound)).mono fun _ _ _ _ h => Expr.assign h

/-! ## Statements -/

theorem expressionThen_sound (bound : Nat) (terminator : Token.Kind) :
    Sound (expressionThen bound terminator)
      (fun ts e rest => ∃ t : Token, Expr ts e (t :: rest) ∧ t.kind = terminator) := by
  refine (Sound.bind (expression_sound bound) fun e =>
    Sound.bind (expect_sound terminator) fun _ => Sound.pure e).mono ?_
  rintro ts n rest - ⟨e, _, he, _, _, ⟨t, ht, rfl⟩, rfl, rfl⟩
  exact ⟨t, he, ht⟩

theorem clause_sound (bound : Nat) (terminator : Token.Kind) :
    Sound (clause bound terminator) (Clause terminator) := by
  refine (Sound.bind (accept_sound terminator)
    (T := fun b ts o rest => if b then o = none ∧ rest = ts else Clause terminator ts o rest)
    fun b => ?_).mono ?_
  · cases b
    · refine (Sound.bind (expressionThen_sound bound terminator) fun e => Sound.pure (some e)).mono ?_
      rintro ts o rest - ⟨e, _, ⟨t, he, ht⟩, rfl, rfl⟩
      exact Clause.given he ht
    · exact Sound.pure none
  · rintro ts o rest - ⟨b, mid, hstop, ho⟩
    cases b
    · obtain ⟨rfl, -⟩ := hstop
      exact ho
    · obtain ⟨t, ht, rfl⟩ := hstop
      obtain ⟨rfl, rfl⟩ := ho
      exact Clause.omitted ht

theorem condition_sound (bound : Nat) :
    Sound (condition bound) (fun ts e rest => ∀ k, Next k ts → Condition k ts e rest) := by
  refine (Sound.bind Sound.advance fun _ => Sound.bind (expect_sound .leftParen) fun _ =>
    expressionThen_sound bound .rightParen).mono ?_
  rintro ts e rest - ⟨_, _, rfl, _, mid, ⟨u, hu, hmid⟩, v, he, hv⟩ k hk
  obtain ⟨t, ht, hts⟩ := took_of_next hk
  rw [hts, hmid]
  exact Condition.parens ht hu he hv

theorem blockRest_sound {stmt : Parser Node} (hstmt : Sound stmt Stmt) (bound : Nat) :
    Sound (blockRest stmt bound)
      (fun ts ns rest => ∃ u : Token, Stmts ts ns (u :: rest) ∧ u.kind = .rightBrace) := by
  induction bound with
  | zero => exact Sound.fail
  | succ bound ih =>
    refine (Sound.bind (accept_sound .rightBrace)
      (T := fun b ts ns rest => if b then ns = [] ∧ rest = ts
        else ∃ u : Token, Stmts ts ns (u :: rest) ∧ u.kind = .rightBrace) fun b => ?_).mono ?_
    · cases b
      · refine Sound.get fun c => ?_
        split
        · exact Sound.fail
        · refine (Sound.bind hstmt fun first => Sound.bind ih fun rest =>
            Sound.pure (first :: rest)).mono ?_
          rintro ts ns rest - ⟨first, mid, hfirst, others, _, ⟨u, hothers, hu⟩, rfl, rfl⟩ -
          exact ⟨u, Stmts.cons hfirst hothers, hu⟩
      · exact Sound.pure []
    · rintro ts ns rest - ⟨b, mid, hclose, hns⟩
      cases b
      · obtain ⟨rfl, -⟩ := hclose
        exact hns
      · obtain ⟨u, hu, rfl⟩ := hclose
        obtain ⟨rfl, rfl⟩ := hns
        exact ⟨u, Stmts.nil, hu⟩

/-- The part of an `if` after its condition. -/
theorem branches_sound {stmt : Parser Node} (hstmt : Sound stmt Stmt) (test : Node) :
    Sound (do
        let yes ← stmt
        if ← accept .elseWord then return Node.cond test yes (some (← stmt))
        else return Node.cond test yes none)
      (fun mid n rest => ∀ ts, Condition .ifWord ts test mid → Stmt ts n rest) := by
  have hno : ∀ (yes : Node) (b : Bool),
      Sound (if b then (stmt >>= fun no => Pure.pure (Node.cond test yes (some no)))
          else Pure.pure (Node.cond test yes none))
        (fun ts n rest => if b then ∃ no, Stmt ts no rest ∧ n = Node.cond test yes (some no)
          else n = Node.cond test yes none ∧ rest = ts) := by
    intro yes b
    cases b
    · exact Sound.pure _
    · refine (Sound.bind hstmt fun no => Sound.pure _).mono ?_
      rintro ts n rest - ⟨no, _, hno, rfl, rfl⟩
      exact ⟨no, hno, rfl⟩
  refine (Sound.bind hstmt fun yes => Sound.bind (accept_sound .elseWord) (hno yes)).mono ?_
  rintro mid n rest - ⟨yes, mid', hyes, b, mid'', helse, hb⟩ ts hts
  cases b
  · obtain ⟨rfl, hnext⟩ := helse
    obtain ⟨rfl, rfl⟩ := hb
    exact Stmt.ifOnly hts hyes hnext
  · obtain ⟨t, ht, rfl⟩ := helse
    obtain ⟨no, hno, rfl⟩ := hb
    exact Stmt.ifElse hts hyes ht hno

theorem statement_sound (bound : Nat) : Sound (statement bound) Stmt := by
  induction bound with
  | zero => exact Sound.fail
  | succ bound ih =>
    refine Sound.within _ (Sound.get fun c => ?_)
    split
    · next hk =>
      refine (Sound.bind Sound.advance fun _ =>
        Sound.bind (expressionThen_sound (bound + 1) .semicolon) fun e => Sound.pure (Node.ret e)).mono ?_
      rintro ts n rest - ⟨_, _, rfl, e, _, ⟨u, he, hu⟩, rfl, rfl⟩ rfl
      obtain ⟨t, ht, hts⟩ := took_of_next hk
      rw [hts]
      exact Stmt.ret ht he hu
    · next hk =>
      refine (Sound.bind (condition_sound (bound + 1)) fun test => branches_sound ih test).mono ?_
      rintro ts n rest - ⟨test, mid, htest, hn⟩ rfl
      exact hn _ (htest _ hk)
    · next hk =>
      refine (Sound.bind (condition_sound (bound + 1)) fun test =>
        Sound.bind ih fun body => Sound.pure (Node.loop test body)).mono ?_
      rintro ts n rest - ⟨test, mid, htest, body, _, hbody, rfl, rfl⟩ rfl
      exact Stmt.loop (htest _ hk) hbody
    · next hk =>
      refine (Sound.bind Sound.advance fun _ => Sound.bind (expect_sound .leftParen) fun _ =>
        Sound.bind (clause_sound (bound + 1) .semicolon) fun init =>
        Sound.bind (clause_sound (bound + 1) .semicolon) fun test =>
        Sound.bind (clause_sound (bound + 1) .rightParen) fun step =>
        Sound.bind ih fun body => Sound.pure (Node.iter init test step body)).mono ?_
      rintro ts n rest - ⟨_, _, rfl, _, ts₀, ⟨u, hu, hopen⟩, init, ts₁, hinit, test, ts₂, htest, step,
        ts₃, hstep, body, _, hbody, rfl, rfl⟩ rfl
      obtain ⟨t, ht, hts⟩ := took_of_next hk
      rw [hts, hopen]
      exact Stmt.iter ht hu hinit htest hstep hbody
    · next hk =>
      refine (Sound.within _ (Sound.bind Sound.advance fun _ =>
        Sound.bind (blockRest_sound ih bound) fun body => Sound.pure (Node.block body))).mono ?_
      rintro ts n rest - ⟨_, _, rfl, body, _, ⟨u, hbody, hu⟩, rfl, rfl⟩ rfl
      obtain ⟨t, ht, hts⟩ := took_of_next hk
      rw [hts]
      exact Stmt.block ht hbody hu
    · refine (expressionThen_sound (bound + 1) .semicolon).mono ?_
      rintro ts n rest - ⟨t, he, ht⟩ -
      exact Stmt.expr he ht

/-- Every statement takes a token, so a count above the number of tokens is never
used up. -/
theorem statements_sound (bound count : Nat) :
    Sound (statements bound count)
      (fun ts ns rest => Stmts ts ns rest ∧ (ts.length < count → rest = [])) := by
  induction count with
  | zero =>
    refine (Sound.pure []).mono ?_
    rintro ts ns rest - ⟨rfl, rfl⟩
    exact ⟨Stmts.nil, fun h => absurd h (Nat.not_lt_zero _)⟩
  | succ count ih =>
    refine Sound.get fun c => ?_
    split
    · next hempty =>
      refine (Sound.pure []).mono ?_
      rintro ts ns rest - ⟨rfl, rfl⟩ rfl
      exact ⟨Stmts.nil, fun _ => List.isEmpty_iff.1 hempty⟩
    · refine (Sound.bind (statement_sound bound) fun first => Sound.bind ih fun rest =>
        Sound.pure (first :: rest)).mono ?_
      rintro ts ns rest - ⟨first, mid, hfirst, others, _, ⟨hothers, hend⟩, rfl, rfl⟩ -
      refine ⟨Stmts.cons hfirst hothers, fun h => hend ?_⟩
      have := hfirst.length_lt
      omega

end Parser

open Grammar in
/-- A program read from proper tokens is spelled by all of them. -/
theorem spells_of_ofTokens {tokens : Tokens} {p : Program}
    (hproper : ∀ t ∈ tokens.body, t.Proper) (h : Program.ofTokens tokens = .ok p) :
    Spells tokens p := by
  unfold Program.ofTokens at h
  split at h
  · next q c hq =>
    cases h
    obtain ⟨rest, -, -, hstmts, hend⟩ :=
      (Parser.Sound.within .program (Parser.statements_sound tokens.bound tokens.bound))
        (c := .ofTokens tokens) hproper hq
    obtain rfl := hend (Nat.lt_succ_self _)
    exact hstmts
  · cases h

end WordC
