import WordC.Proofs.Grammar.Locality
/-!
The bounds of the rules do not matter.

A rule that is read with a bound greater than the number of tokens left does the same
with every other such bound, whether it succeeds or fails.  Every call that lowers the
bound comes after a token that has been taken.
-/

namespace WordC
namespace Parser

open Grammar

/-- The readers do the same where fewer than `n` tokens are left. -/
def Agrees {α : Type} (n : Nat) (p p' : Parser α) : Prop :=
  ∀ c : Cursor, c.rest.length < n → p c = p' c

theorem Traced.length_le {α : Type} {least : Nat} {p : Parser α} {c d : Cursor} {a : α}
    (h : Traced least p c.rest) (hp : p c = .ok a d) : d.rest.length + least ≤ c.rest.length := by
  obtain ⟨ts, ending, trail⟩ := c
  cases h with
  | reads pre rest b hts hleast hreads =>
    dsimp only at hts
    subst hts
    cases hp.symm.trans (hreads pre rest (.refl pre rest) ending trail)
    simp only [List.length_append]
    omega
  | refuses pre rest near cause inner hts hrefuses =>
    dsimp only at hts
    subst hts
    cases hp.symm.trans (hrefuses pre rest (.refl pre rest) ending trail)
  | misses hmisses =>
    obtain ⟨r, c', hr, -⟩ := hmisses ending trail
    cases hp.symm.trans hr

/-- Two readers one after the other, at one cursor. -/
theorem bind_apply_eq {α β : Type} {least : Nat} {p p' : Parser α} {f f' : α → Parser β}
    {c : Cursor} (hp : p c = p' c) (h : Traced least p c.rest)
    (hf : ∀ a d, d.rest.length + least ≤ c.rest.length → f a d = f' a d) :
    (p >>= f) c = (p' >>= f') c := by
  cases hrun : p c with
  | error r d => rw [bind_of_error hrun, bind_of_error (hp.symm.trans hrun)]
  | ok a d =>
    rw [bind_of_ok hrun, bind_of_ok (hp.symm.trans hrun)]
    exact hf a d (h.length_le hrun)

theorem get_apply {β : Type} {f : Cursor → Parser β} {c : Cursor}
    {r : EStateM.Result Rejection Cursor β} (h : f c c = r) : (EStateM.get >>= f) c = r :=
  h

namespace Agrees

variable {α β : Type} {n m least : Nat} {p p' : Parser α}

theorem refl (n : Nat) (p : Parser α) : Agrees n p p := fun _ _ => rfl

theorem zero (p p' : Parser α) : Agrees 0 p p' := fun _ hc => absurd hc (Nat.not_lt_zero _)

theorem mono (h : Agrees n p p') (hle : m ≤ n) : Agrees m p p' :=
  fun c hc => h c (Nat.lt_of_lt_of_le hc hle)

theorem bind {f f' : α → Parser β} (hp : Agrees n p p') (h : Local least p)
    (hf : ∀ a, Agrees m (f a) (f' a)) (hle : n ≤ m + least) : Agrees n (p >>= f) (p' >>= f') :=
  fun c hc => bind_apply_eq (hp c hc) (h c.rest) fun a d hd => hf a d (by omega)

/-- The first reader need not take a token. -/
theorem andThen {f f' : α → Parser β} (hp : Agrees n p p') (h : Local least p)
    (hf : ∀ a, Agrees n (f a) (f' a)) : Agrees n (p >>= f) (p' >>= f') :=
  hp.bind h hf (Nat.le_add_right _ _)

theorem within_apply {c : Cursor} (production : Production)
    (h : p { c with trail := production :: c.trail } =
      p' { c with trail := production :: c.trail }) :
    within production p c = within production p' c := by
  rw [Parser.within, Parser.within, h]

theorem within (production : Production) (h : Agrees n p p') :
    Agrees n (within production p) (Parser.within production p') :=
  fun _ hc => within_apply production (h _ hc)

theorem get {f f' : Cursor → Parser β} (h : ∀ c : Cursor, c.rest.length < n → f c c = f' c c) :
    Agrees n (EStateM.get >>= f) (EStateM.get >>= f') :=
  h

theorem accept {k : Token.Kind} {f f' : Bool → Parser β} (hf : ∀ b, Agrees n (f b) (f' b)) :
    Agrees n (accept k >>= f) (Parser.accept k >>= f') :=
  (refl n _).andThen (fun _ => Traced.accept k) hf

theorem expect {k : Token.Kind} {f f' : Unit → Parser β} (hf : ∀ b, Agrees n (f b) (f' b)) :
    Agrees n (expect k >>= f) (Parser.expect k >>= f') :=
  (refl n _).andThen (fun _ => Traced.expect k) hf

end Agrees

/-! ## Expressions -/

section

variable {n least : Nat} {expr expr' : Parser Node} (h : Agrees n expr expr')
  (hlocal : Local least expr)

include h hlocal

theorem primary_agrees : Agrees (n + 1) (primary expr) (primary expr') := by
  refine Agrees.within _ fun c hc => ?_
  obtain ⟨ts, ending, trail⟩ := c
  cases ts with
  | nil => rfl
  | cons t ts =>
    obtain ⟨kind, content, place⟩ := t
    cases kind with
    | leftParen =>
      have hrest := h.andThen (f := fun e => do Parser.expect .rightParen; return e) hlocal
        fun _ => .refl n _
      exact hrest ⟨ts, ending, trail⟩ (Nat.lt_of_succ_lt_succ hc)
    | _ => rfl

theorem unary_agrees : Agrees (n + 1) (unary expr) (unary expr') := by
  have hprimary := primary_agrees h hlocal
  refine Agrees.within _ (Agrees.accept fun b => ?_)
  cases b with
  | true => exact hprimary
  | false =>
    refine Agrees.accept fun b => ?_
    cases b with
    | true => exact hprimary.andThen (primary_local hlocal) fun _ => .refl _ _
    | false => exact hprimary

end

section

variable {level : Level} {n least : Nat} {next next' : Parser Node} (h : Agrees n next next')
  (hlocal : Local least next)

theorem chainRest_stop {c : Cursor} (hop : c.kind?.bind level.operator? = none) (bound : Nat)
    (left : Node) : chainRest level next bound left c = .ok left c := by
  cases bound with
  | zero => rfl
  | succ bound =>
    refine get_apply ?_
    rw [hop]
    rfl

theorem chainRest_step {t : Token} {ts : List Token} {ending : Place} {trail : List Production}
    {op : Operator} (hop : level.operator? t.kind = some op) (bound : Nat) (left : Node) :
    chainRest level next (bound + 1) left ⟨t :: ts, ending, trail⟩ =
      (do chainRest level next bound (.binary op left (← next)) : Parser Node)
        ⟨ts, ending, trail⟩ := by
  refine get_apply ?_
  have hsome : (Cursor.mk (t :: ts) ending trail).kind?.bind level.operator? = some op := hop
  rw [hsome]
  rfl

include h hlocal

theorem chainRest_agrees {m bound bound' : Nat} (hm : m ≤ n) (hbound : m ≤ bound + 1)
    (hbound' : m ≤ bound' + 1) (left : Node) :
    Agrees m (chainRest level next bound left) (chainRest level next' bound' left) := by
  induction m generalizing bound bound' left with
  | zero => exact .zero _ _
  | succ m ih =>
    intro c hc
    cases hop : c.kind?.bind level.operator? with
    | none => rw [chainRest_stop hop, chainRest_stop hop]
    | some op =>
      obtain ⟨k, hk, hop⟩ := Option.bind_eq_some_iff.1 hop
      obtain ⟨ts, ending, trail⟩ := c
      obtain ⟨t, rfl, hts⟩ := took_of_next hk
      dsimp only at hts hc
      rw [hts, List.length_cons] at hc
      obtain ⟨b, rfl⟩ : ∃ b, bound = b + 1 := ⟨bound - 1, by omega⟩
      obtain ⟨b', rfl⟩ : ∃ b, bound' = b + 1 := ⟨bound' - 1, by omega⟩
      rw [hts, chainRest_step hop, chainRest_step hop]
      have hnext : Agrees m next next' := h.mono (by omega)
      exact hnext.andThen hlocal (fun right => ih (by omega) (by omega) (by omega) _) _ (by
        dsimp only
        omega)

theorem chain_agrees (level : Level) {bound bound' : Nat} (hbound : n ≤ bound + 1)
    (hbound' : n ≤ bound' + 1) :
    Agrees n (chain level bound next) (chain level bound' next') :=
  Agrees.within _ (h.andThen hlocal fun first =>
    chainRest_agrees h hlocal (Nat.le_refl n) hbound hbound' first)

end

theorem operation_agrees {n least bound bound' : Nat} {expr expr' : Parser Node}
    (h : Agrees n expr expr') (hlocal : Local least expr) (hbound : n ≤ bound)
    (hbound' : n ≤ bound') : Agrees (n + 1) (operation bound expr) (operation bound' expr') := by
  have hle := Nat.succ_le_succ hbound
  have hle' := Nat.succ_le_succ hbound'
  have lmul := chain_local .mul (unary_local hlocal) bound
  have ladd := chain_local .add lmul bound
  have hmul := chain_agrees (unary_agrees h hlocal) (unary_local hlocal) .mul hle hle'
  have hadd := chain_agrees hmul lmul .add hle hle'
  have hrelational := chain_agrees hadd ladd .relational hle hle'
  exact chain_agrees hrelational (chain_local .relational ladd bound) .equality hle hle'

theorem assignRest_agrees {n bound bound' : Nat} (h : Agrees n (assign bound) (assign bound'))
    (spot : Cursor) (left : Node) :
    Agrees (n + 1) (assignRest bound spot left) (assignRest bound' spot left) := by
  intro c hc
  rw [assignRest_apply, assignRest_apply]
  by_cases hk : c.kind? = some .assign
  · rw [if_pos hk, if_pos hk]
    cases left with
    | ident name =>
      obtain ⟨ts, ending, trail⟩ := c
      obtain ⟨t, -, hts⟩ := took_of_next hk
      dsimp only at hts hc
      rw [hts] at hc ⊢
      exact h.andThen (f := fun e => pure (Node.binary .assign (.ident name) e))
        (assign_local bound) (fun _ => .refl n _) ⟨_, ending, trail⟩ (Nat.lt_of_succ_lt_succ hc)
    | _ => rfl
  · rw [if_neg hk, if_neg hk]

theorem assign_agrees {n bound bound' : Nat} (hbound : n ≤ bound) (hbound' : n ≤ bound') :
    Agrees n (assign bound) (assign bound') := by
  induction n generalizing bound bound' with
  | zero => exact .zero _ _
  | succ n ih =>
    obtain ⟨b, rfl⟩ : ∃ b, bound = b + 1 := ⟨bound - 1, by omega⟩
    obtain ⟨b', rfl⟩ : ∃ b, bound' = b + 1 := ⟨bound' - 1, by omega⟩
    have hassign : Agrees n (assign b) (assign b') := ih (by omega) (by omega)
    have hlocal : Local 1 (within .expr (assign b)) := fun ts => (assign_local b ts).within _
    have hoperation := operation_agrees (hassign.within .expr) hlocal (by omega : n ≤ b)
      (by omega : n ≤ b')
    refine Agrees.within _ fun c hc => ?_
    exact hoperation.andThen (operation_local hlocal b) (assignRest_agrees hassign c) c hc

theorem expression_agrees {n bound bound' : Nat} (hbound : n ≤ bound) (hbound' : n ≤ bound') :
    Agrees n (expression bound) (expression bound') :=
  (assign_agrees hbound hbound').within _

/-! ## Statements -/

section

variable {n bound bound' : Nat} (hbound : n ≤ bound) (hbound' : n ≤ bound')

include hbound hbound'

theorem expressionThen_agrees (terminator : Token.Kind) :
    Agrees n (expressionThen bound terminator) (expressionThen bound' terminator) :=
  (expression_agrees hbound hbound').andThen (expression_local bound) fun _ => .refl n _

theorem clause_agrees (terminator : Token.Kind) :
    Agrees n (clause bound terminator) (clause bound' terminator) := by
  refine Agrees.accept fun b => ?_
  cases b with
  | true => exact .refl n _
  | false =>
    exact (expressionThen_agrees hbound hbound' terminator).andThen
      (expressionThen_local bound terminator) fun _ => .refl n _

theorem condition_agrees : Agrees n (condition bound) (condition bound') := by
  intro c hc
  have hrest : Agrees n (do expect .leftParen; expressionThen bound .rightParen)
      (do expect .leftParen; expressionThen bound' .rightParen) :=
    Agrees.expect fun _ => expressionThen_agrees hbound hbound' .rightParen
  refine hrest { c with rest := c.rest.tail } ?_
  have hle := c.rest.length_tail
  dsimp only
  omega

end

theorem blockRest_agrees {n m bound bound' : Nat} {stmt stmt' : Parser Node}
    (h : Agrees n stmt stmt') (hlocal : Local 1 stmt) (hm : m ≤ n) (hbound : m ≤ bound)
    (hbound' : m ≤ bound') : Agrees m (blockRest stmt bound) (blockRest stmt' bound') := by
  induction m generalizing bound bound' with
  | zero => exact .zero _ _
  | succ m ih =>
    obtain ⟨b, rfl⟩ : ∃ b, bound = b + 1 := ⟨bound - 1, by omega⟩
    obtain ⟨b', rfl⟩ : ∃ b, bound' = b + 1 := ⟨bound' - 1, by omega⟩
    refine Agrees.accept fun closed => ?_
    cases closed with
    | true => exact .refl _ _
    | false =>
      have hrest : Agrees (m + 1) (do let first ← stmt; return first :: (← blockRest stmt b))
          (do let first ← stmt'; return first :: (← blockRest stmt' b')) :=
        (h.mono hm).bind hlocal (fun first => (ih (by omega) (by omega) (by omega)).andThen
          (blockRest_local hlocal b) fun _ => .refl m _) (Nat.le_refl _)
      intro c hc
      obtain ⟨ts, ending, trail⟩ := c
      cases ts with
      | nil => rfl
      | cons t ts => exact hrest ⟨t :: ts, ending, trail⟩ hc

theorem statement_agrees {n bound bound' : Nat} (hbound : n ≤ bound) (hbound' : n ≤ bound') :
    Agrees n (statement bound) (statement bound') := by
  induction n generalizing bound bound' with
  | zero => exact .zero _ _
  | succ n ih =>
    obtain ⟨b, rfl⟩ : ∃ b, bound = b + 1 := ⟨bound - 1, by omega⟩
    obtain ⟨b', rfl⟩ : ∃ b, bound' = b + 1 := ⟨bound' - 1, by omega⟩
    have hstmt : Agrees n (statement b) (statement b') := ih (by omega) (by omega)
    have hlocal := statement_local b
    have hsimple : Agrees (n + 1) (expressionThen (b + 1) .semicolon)
        (expressionThen (b' + 1) .semicolon) := expressionThen_agrees hbound hbound' .semicolon
    have hcondition : Agrees (n + 1) (condition (b + 1)) (condition (b' + 1)) :=
      condition_agrees hbound hbound'
    have hle : n ≤ b + 1 := by omega
    have hle' : n ≤ b' + 1 := by omega
    refine Agrees.within _ (Agrees.get fun c hc => ?_)
    obtain ⟨ts, ending, trail⟩ := c
    cases ts with
    | nil => exact hsimple ⟨[], ending, trail⟩ hc
    | cons t ts =>
      have hts : ts.length < n := Nat.lt_of_succ_lt_succ hc
      obtain ⟨kind, content, place⟩ := t
      cases kind with
      | returnWord =>
        exact hsimple.andThen (f := fun e => pure (Node.ret e))
          (expressionThen_local (b + 1) .semicolon) (fun _ => .refl _ _) ⟨ts, ending, trail⟩
          (Nat.lt_succ_of_lt hts)
      | ifWord =>
        refine bind_apply_eq (hcondition _ hc) (condition_traced (b + 1) _ ts) fun test d hd => ?_
        refine hstmt.andThen hlocal (fun yes => Agrees.accept fun no => ?_) d
          (Nat.lt_of_lt_of_le hd (Nat.le_of_lt_succ hc))
        cases no with
        | true => exact hstmt.andThen hlocal fun _ => .refl n _
        | false => exact .refl n _
      | whileWord =>
        refine bind_apply_eq (hcondition _ hc) (condition_traced (b + 1) _ ts) fun test d hd => ?_
        exact hstmt.andThen hlocal (fun _ => .refl n _) d
          (Nat.lt_of_lt_of_le hd (Nat.le_of_lt_succ hc))
      | forWord =>
        have hheader : Agrees n (do
              expect .leftParen
              let init ← clause (b + 1) .semicolon
              let test ← clause (b + 1) .semicolon
              let step ← clause (b + 1) .rightParen
              return Node.iter init test step (← statement b))
            (do
              expect .leftParen
              let init ← clause (b' + 1) .semicolon
              let test ← clause (b' + 1) .semicolon
              let step ← clause (b' + 1) .rightParen
              return Node.iter init test step (← statement b')) :=
          Agrees.expect fun _ =>
            (clause_agrees hle hle' .semicolon).andThen (clause_local _ _) fun init =>
            (clause_agrees hle hle' .semicolon).andThen (clause_local _ _) fun test =>
            (clause_agrees hle hle' .rightParen).andThen (clause_local _ _) fun step =>
            hstmt.andThen hlocal fun _ => .refl n _
        exact hheader ⟨ts, ending, trail⟩ hts
      | leftBrace =>
        refine Agrees.within_apply .block ?_
        have hblock : Agrees n (blockRest (statement b) b) (blockRest (statement b') b') :=
          blockRest_agrees hstmt hlocal (Nat.le_refl n) (by omega) (by omega)
        exact hblock.andThen (f := fun body => pure (Node.block body)) (blockRest_local hlocal b)
          (fun _ => .refl n _) ⟨ts, ending, .block :: trail⟩ hts
      | _ => exact hsimple ⟨_ :: ts, ending, trail⟩ hc

theorem statements_agrees {n m bound bound' count count' : Nat} (hbound : n ≤ bound)
    (hbound' : n ≤ bound') (hm : m ≤ n) (hcount : m ≤ count) (hcount' : m ≤ count') :
    Agrees m (statements bound count) (statements bound' count') := by
  induction m generalizing count count' with
  | zero => exact .zero _ _
  | succ m ih =>
    obtain ⟨k, rfl⟩ : ∃ k, count = k + 1 := ⟨count - 1, by omega⟩
    obtain ⟨k', rfl⟩ : ∃ k, count' = k + 1 := ⟨count' - 1, by omega⟩
    have hrest : Agrees (m + 1)
        (do let first ← statement bound; return first :: (← statements bound k))
        (do let first ← statement bound'; return first :: (← statements bound' k')) :=
      ((statement_agrees hbound hbound').mono hm).bind (statement_local bound)
        (fun first => (ih (by omega) (by omega) (by omega)).andThen (statements_local bound k)
          fun _ => .refl m _) (Nat.le_refl _)
    intro c hc
    obtain ⟨ts, ending, trail⟩ := c
    cases ts with
    | nil => rfl
    | cons t ts => exact hrest ⟨t :: ts, ending, trail⟩ hc

/-- A program is read in the same way with every bound that is great enough. -/
theorem program_agrees {n bound bound' : Nat} (hbound : n ≤ bound) (hbound' : n ≤ bound') :
    Agrees n (program bound) (program bound') :=
  (statements_agrees hbound hbound' (Nat.le_refl n) hbound hbound').within _

end Parser
end WordC
