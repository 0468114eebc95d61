import WordC.Proofs.Grammar.Completeness
/-!
No rule looks further than the token it stops at.

A reader takes some tokens and stops at the next one, whether it succeeds or fails.
`Traced` says that all other tokens may be replaced: on every list that looks the same up
to and including the token at which the reader stopped, it ends in the same way.  The
one exception is an assignment to something that is no name, which is reported at a token
further left.
-/

namespace WordC

/-- What a reader sees of a token. -/
def Token.mark (t : Token) : Token.Kind × Text := (t.kind, t.content)

/-- The rejection names the target of an assignment. -/
def Rejection.OffTarget (r : Rejection) : Prop := ∃ target, r.cause = .invalidTarget target

namespace Parser

open Grammar

/-- The next token looks the same, or there is none. -/
def SameHead (ts ts' : List Token) : Prop := ts'.head?.map Token.mark = ts.head?.map Token.mark

namespace SameHead

variable {ts ts' : List Token}

theorem kind? (h : SameHead ts ts') :
    ts'.head?.map (·.kind) = ts.head?.map (·.kind) := by
  have hmap := congrArg (Option.map Prod.fst) h
  rwa [Option.map_map, Option.map_map] at hmap

theorem exists_of_cons {t : Token} (h : SameHead (t :: ts) ts') :
    ∃ place us, ts' = ⟨t.kind, t.content, place⟩ :: us := by
  cases ts' with
  | nil => cases h
  | cons u us =>
    obtain ⟨kind, content, place⟩ := u
    obtain ⟨rfl, rfl⟩ := Prod.mk.inj (Option.some.inj h)
    exact ⟨place, us, rfl⟩

theorem eq_nil (h : SameHead [] ts') : ts' = [] := by
  cases ts' with
  | nil => rfl
  | cons u us => cases h

end SameHead

/-- `pre' ++ rest'` looks like `pre ++ rest` up to the first token of `rest`. -/
structure Alike (pre rest pre' rest' : List Token) : Prop where
  same : pre'.map Token.mark = pre.map Token.mark
  head : SameHead rest rest'

namespace Alike

variable {pre rest pre' rest' : List Token}

theorem refl (pre rest : List Token) : Alike pre rest pre rest := ⟨rfl, rfl⟩

theorem nil (h : Alike [] rest pre' rest') : pre' = [] := List.map_eq_nil_iff.1 h.same

theorem cons {t : Token} (h : Alike (t :: pre) rest pre' rest') :
    ∃ t' us, pre' = t' :: us ∧ t'.kind = t.kind ∧ Alike pre rest us rest' := by
  obtain ⟨t', us, rfl, ht, hus⟩ := List.map_eq_cons_iff.1 h.same
  exact ⟨t', us, rfl, congrArg Prod.fst ht, hus, h.head⟩

theorem sameHead (h : Alike pre rest pre' rest') : SameHead (pre ++ rest) (pre' ++ rest') := by
  cases pre with
  | nil =>
    obtain rfl := h.nil
    exact h.head
  | cons t pre =>
    obtain ⟨t', us, rfl, ht, -⟩ := List.map_eq_cons_iff.1 h.same
    exact congrArg some ht

/-- What is taken in two steps. -/
theorem split {pre₁ pre₂ : List Token} (h : Alike (pre₁ ++ pre₂) rest pre' rest') :
    ∃ us₁ us₂, pre' = us₁ ++ us₂ ∧ Alike pre₁ (pre₂ ++ rest) us₁ (us₂ ++ rest') ∧
      Alike pre₂ rest us₂ rest' := by
  have hsame := h.same
  rw [List.map_append] at hsame
  obtain ⟨us₁, us₂, rfl, h₁, h₂⟩ := List.map_eq_append_iff.1 hsame
  have hlater : Alike pre₂ rest us₂ rest' := ⟨h₂, h.head⟩
  exact ⟨us₁, us₂, rfl, ⟨h₁, hlater.sameHead⟩, hlater⟩

end Alike

/-- The reader fails at the first token of `rest`, whatever the ending and the trail.  Of the
rules that it reports, `inner` are those that it has entered itself. -/
def Refuses {α : Type} (p : Parser α) (ts rest : List Token) (near : Text)
    (cause : Rejection.Cause) (inner : List Production) : Prop :=
  ∀ (ending : Place) (trail : List Production),
    p ⟨ts, ending, trail⟩ =
      .error ⟨Cursor.place ⟨rest, ending, trail⟩, near, cause, trail.reverse ++ inner⟩
        ⟨rest, ending, trail⟩

namespace Refuses

variable {α β : Type} {ts mid rest : List Token} {near : Text} {cause : Rejection.Cause}
  {inner : List Production}

theorem bind_left {p : Parser α} (h : Refuses p ts rest near cause inner) (f : α → Parser β) :
    Refuses (p >>= f) ts rest near cause inner :=
  fun ending trail => bind_of_error (h ending trail)

theorem bind {p : Parser α} {f : α → Parser β} {a : α} (hp : Reads p ts a mid)
    (hf : Refuses (f a) mid rest near cause inner) : Refuses (p >>= f) ts rest near cause inner :=
  fun ending trail => (bind_of_ok (hp ending trail)).trans (hf ending trail)

theorem get {f : Cursor → Parser β}
    (hf : ∀ ending trail, Refuses (f ⟨ts, ending, trail⟩) ts rest near cause inner) :
    Refuses (EStateM.get >>= f) ts rest near cause inner :=
  fun ending trail => hf ending trail ending trail

theorem within {p : Parser α} (production : Production) (h : Refuses p ts rest near cause inner) :
    Refuses (within production p) ts rest near cause (production :: inner) := by
  intro ending trail
  rw [Parser.within, h ending (production :: trail)]
  simp [Cursor.place]

end Refuses

/-- The reader comes upon an assignment to something that is no name. -/
def Misses {α : Type} (p : Parser α) (c : Cursor) : Prop := ∃ r c', p c = .error r c' ∧ r.OffTarget

theorem Misses.bind_left {α β : Type} {p : Parser α} {c : Cursor} (h : Misses p c)
    (f : α → Parser β) : Misses (p >>= f) c := by
  obtain ⟨r, c', hr, hoff⟩ := h
  exact ⟨r, c', bind_of_error hr, hoff⟩

theorem Misses.bind {α β : Type} {p : Parser α} {f : α → Parser β} {c c' : Cursor} {a : α}
    (hp : p c = .ok a c') (h : Misses (f a) c') : Misses (p >>= f) c := by
  obtain ⟨r, c'', hr, hoff⟩ := h
  exact ⟨r, c'', (bind_of_ok hp).trans hr, hoff⟩

/-- On the tokens, the reader takes at least so many, or fails.  It does the same on all
tokens that look alike. -/
inductive Traced {α : Type} (least : Nat) (p : Parser α) (ts : List Token) : Prop where
  | reads (pre rest : List Token) (a : α) : ts = pre ++ rest → least ≤ pre.length →
      (∀ pre' rest', Alike pre rest pre' rest' → Reads p (pre' ++ rest') a rest') →
      Traced least p ts
  | refuses (pre rest : List Token) (near : Text) (cause : Rejection.Cause)
      (inner : List Production) : ts = pre ++ rest →
      (∀ pre' rest', Alike pre rest pre' rest' →
        Refuses p (pre' ++ rest') rest' near cause inner) →
      Traced least p ts
  | misses : (∀ ending trail, Misses p ⟨ts, ending, trail⟩) → Traced least p ts

/-- Wherever it starts. -/
def Local {α : Type} (least : Nat) (p : Parser α) : Prop := ∀ ts, Traced least p ts

namespace Traced

variable {α β : Type} {least least' : Nat} {ts : List Token}

theorem mono {p : Parser α} (h : Traced least p ts) (hle : least' ≤ least) :
    Traced least' p ts := by
  cases h with
  | reads pre rest a hts hleast h => exact .reads pre rest a hts (Nat.le_trans hle hleast) h
  | refuses pre rest near cause inner hts h => exact .refuses pre rest near cause inner hts h
  | misses h => exact .misses h

theorem pure (a : α) : Traced 0 (pure a) ts := by
  refine .reads [] ts a rfl (Nat.zero_le _) fun pre' rest' h => ?_
  obtain rfl := h.nil
  exact Reads.pure a

theorem fail (cause : Rejection.Cause) : Traced least (fail cause : Parser α) ts := by
  refine .refuses [] ts (Cursor.near ⟨ts, .start, []⟩) cause [] rfl
    fun pre' rest' h ending trail => ?_
  obtain rfl := h.nil
  have hnear : Cursor.near ⟨rest', ending, trail⟩ = Cursor.near ⟨ts, .start, []⟩ := by
    cases ts with
    | nil => rw [h.head.eq_nil, Cursor.near, Cursor.near]
    | cons t ts =>
      obtain ⟨place, us, rfl⟩ := h.head.exists_of_cons
      rfl
  simp [Parser.fail, Parser.failAt, hnear]

theorem bind_add {p : Parser α} {f : α → Parser β} (hp : Traced least p ts)
    (hf : ∀ a rest, Traced least' (f a) rest) : Traced (least + least') (p >>= f) ts := by
  cases hp with
  | reads pre mid a hts hleast hreads =>
    cases hf a mid with
    | reads pre' rest b hmid hleast' hreads' =>
      subst hmid
      refine .reads (pre ++ pre') rest b (by rw [hts, List.append_assoc]) ?_ fun us rest' h => ?_
      · rw [List.length_append]
        omega
      · obtain ⟨us₁, us₂, rfl, h₁, h₂⟩ := h.split
        rw [List.append_assoc]
        exact Reads.bind (hreads _ _ h₁) (hreads' _ _ h₂)
    | refuses pre' rest near cause inner hmid hrefuses =>
      subst hmid
      refine .refuses (pre ++ pre') rest near cause inner (by rw [hts, List.append_assoc])
        fun us rest' h => ?_
      obtain ⟨us₁, us₂, rfl, h₁, h₂⟩ := h.split
      rw [List.append_assoc]
      exact Refuses.bind (hreads _ _ h₁) (hrefuses _ _ h₂)
    | misses hmisses =>
      refine .misses fun ending trail => ?_
      rw [hts]
      exact Misses.bind (hreads pre mid (.refl pre mid) ending trail) (hmisses ending trail)
  | refuses pre rest near cause inner hts hrefuses =>
    exact .refuses pre rest near cause inner hts fun pre' rest' h =>
      (hrefuses pre' rest' h).bind_left f
  | misses hmisses => exact .misses fun ending trail => (hmisses ending trail).bind_left f

/-- The second of two readers takes the tokens that are asked for. -/
theorem bind {p : Parser α} {f : α → Parser β} (hp : Traced least' p ts)
    (hf : ∀ a rest, Traced least (f a) rest) : Traced least (p >>= f) ts :=
  (hp.bind_add hf).mono (Nat.le_add_left _ _)

/-- The first of two readers takes them. -/
theorem bind_first {p : Parser α} {f : α → Parser β} (hp : Traced least p ts)
    (hf : ∀ a rest, Traced least' (f a) rest) : Traced least (p >>= f) ts :=
  (hp.bind_add hf).mono (Nat.le_add_right _ _)

/-- What follows depends on the next token alone. -/
theorem get {f : Cursor → Parser β} {g : Parser β} (hg : ∀ c : Cursor, SameHead ts c.rest → f c = g)
    (h : Traced least g ts) : Traced least (EStateM.get >>= f) ts := by
  have hrun : ∀ (ts' : List Token) (ending : Place) (trail : List Production), SameHead ts ts' →
      (EStateM.get >>= f) ⟨ts', ending, trail⟩ = g ⟨ts', ending, trail⟩ :=
    fun ts' ending trail h => congrFun (hg ⟨ts', ending, trail⟩ h) _
  cases h with
  | reads pre rest a hts hleast hreads =>
    refine .reads pre rest a hts hleast fun pre' rest' h ending trail => ?_
    rw [hrun _ _ _ (hts ▸ h.sameHead)]
    exact hreads pre' rest' h ending trail
  | refuses pre rest near cause inner hts hrefuses =>
    refine .refuses pre rest near cause inner hts fun pre' rest' h ending trail => ?_
    rw [hrun _ _ _ (hts ▸ h.sameHead)]
    exact hrefuses pre' rest' h ending trail
  | misses hmisses =>
    refine .misses fun ending trail => ?_
    rw [Misses, hrun ts ending trail rfl]
    exact hmisses ending trail

theorem get_nil {f : Cursor → Parser β} {g : Parser β}
    (hg : ∀ ending trail, f ⟨[], ending, trail⟩ = g) (h : Traced least g []) :
    Traced least (EStateM.get >>= f) [] := by
  refine get (fun c hc => ?_) h
  obtain ⟨ts, ending, trail⟩ := c
  obtain rfl := hc.eq_nil
  exact hg ending trail

theorem get_cons {f : Cursor → Parser β} {g : Parser β} {t : Token}
    (hg : ∀ place ts ending trail, f ⟨⟨t.kind, t.content, place⟩ :: ts, ending, trail⟩ = g)
    (h : Traced least g (t :: ts)) : Traced least (EStateM.get >>= f) (t :: ts) := by
  refine get (fun c hc => ?_) h
  obtain ⟨us, ending, trail⟩ := c
  obtain ⟨place, us, rfl⟩ := hc.exists_of_cons
  exact hg place us ending trail

/-- The cursor is taken down for a target that may be missed. -/
theorem get_spot {f : Cursor → Parser β} {g : Parser β}
    (hg : ∀ spot c, f spot c = g c ∨ Misses (f spot) c ∧ Misses g c) (h : Traced least g ts) :
    Traced least (EStateM.get >>= f) ts := by
  cases h with
  | reads pre rest a hts hleast hreads =>
    refine .reads pre rest a hts hleast fun pre' rest' h ending trail => ?_
    have hread := hreads pre' rest' h ending trail
    rcases hg ⟨pre' ++ rest', ending, trail⟩ ⟨pre' ++ rest', ending, trail⟩ with
      heq | ⟨-, r, c, hr, -⟩
    · exact heq.trans hread
    · cases hread.symm.trans hr
  | refuses pre rest near cause inner hts hrefuses =>
    by_cases hcause : ∃ target, cause = .invalidTarget target
    · refine .misses fun ending trail => ?_
      have hrefuse := hrefuses pre rest (.refl pre rest) ending trail
      rw [← hts] at hrefuse
      rcases hg ⟨ts, ending, trail⟩ ⟨ts, ending, trail⟩ with heq | ⟨hmiss, -⟩
      · exact ⟨_, _, heq.trans hrefuse, hcause⟩
      · exact hmiss
    · refine .refuses pre rest near cause inner hts fun pre' rest' h ending trail => ?_
      have hrefuse := hrefuses pre' rest' h ending trail
      rcases hg ⟨pre' ++ rest', ending, trail⟩ ⟨pre' ++ rest', ending, trail⟩ with
        heq | ⟨-, r, c, hr, hoff⟩
      · exact heq.trans hrefuse
      · cases hrefuse.symm.trans hr
        exact absurd hoff hcause
  | misses hmisses =>
    refine .misses fun ending trail => ?_
    rcases hg ⟨ts, ending, trail⟩ ⟨ts, ending, trail⟩ with heq | ⟨hmiss, -⟩
    · obtain ⟨r, c, hr, hoff⟩ := hmisses ending trail
      exact ⟨r, c, heq.trans hr, hoff⟩
    · exact hmiss

theorem within {p : Parser α} (production : Production) (h : Traced least p ts) :
    Traced least (within production p) ts := by
  cases h with
  | reads pre rest a hts hleast hreads =>
    exact .reads pre rest a hts hleast fun pre' rest' h => (hreads pre' rest' h).within production
  | refuses pre rest near cause inner hts hrefuses =>
    exact .refuses pre rest near cause _ hts fun pre' rest' h =>
      (hrefuses pre' rest' h).within production
  | misses hmisses =>
    refine .misses fun ending trail => ?_
    obtain ⟨r, c, hr, hoff⟩ := hmisses ending (production :: trail)
    rw [Misses, Parser.within, hr]
    exact ⟨r, _, rfl, hoff⟩

/-- A step over a token that is there. -/
theorem advance (t : Token) (ts : List Token) : Traced 1 advance (t :: ts) := by
  refine .reads [t] ts () rfl (Nat.le_refl 1) fun pre' rest' h => ?_
  obtain ⟨t', us, rfl, -, hus⟩ := h.cons
  obtain rfl := hus.nil
  exact Reads.advance t'

theorem accept (k : Token.Kind) : Traced 0 (accept k) ts := by
  by_cases hk : Next k ts
  · obtain ⟨t, ht, hts⟩ := took_of_next hk
    rw [hts]
    refine .reads [t] _ true rfl (Nat.zero_le _) fun pre' rest' h => ?_
    obtain ⟨t', us, rfl, ht', hus⟩ := h.cons
    obtain rfl := hus.nil
    exact Reads.accept (ht'.trans ht)
  · refine .reads [] ts false rfl (Nat.zero_le _) fun pre' rest' h => ?_
    obtain rfl := h.nil
    exact Reads.pass fun hnext => hk (h.head.kind?.symm.trans hnext)

theorem expect (k : Token.Kind) : Traced 0 (expect k) ts := by
  refine (accept k).bind fun b rest => ?_
  cases b with
  | false => exact fail _
  | true => exact pure ()

end Traced

/-! ## Expressions -/

theorem primary_local {expr : Parser Node} {least : Nat} (hexpr : Local least expr) :
    Local 1 (primary expr) := by
  intro ts
  refine Traced.within _ ?_
  cases ts with
  | nil => exact Traced.get_nil (fun _ _ => rfl) (Traced.fail (.expected Expectation.operand))
  | cons t ts =>
    obtain ⟨kind, content, place⟩ := t
    cases kind with
    | number =>
      cases hvalue : Text.readDecimal content with
      | error e =>
        refine Traced.get_cons (fun _ _ _ _ => ?_) (Traced.fail .literalOutOfRange)
        dsimp only
        rw [hvalue]
      | ok value =>
        refine Traced.get_cons (fun _ _ _ _ => ?_)
          ((Traced.advance _ ts).bind_first fun _ _ => Traced.pure (Node.num value))
        dsimp only
        rw [hvalue]
    | name =>
      exact Traced.get_cons (fun _ _ _ _ => rfl)
        ((Traced.advance _ ts).bind_first fun _ _ => Traced.pure (Node.ident content))
    | leftParen =>
      exact Traced.get_cons (fun _ _ _ _ => rfl) ((Traced.advance _ ts).bind_first fun _ rest =>
        (hexpr rest).bind fun e _ => (Traced.expect .rightParen).bind fun _ _ => Traced.pure e)
    | _ =>
      exact Traced.get_cons (fun _ _ _ _ => rfl) (Traced.fail (.expected Expectation.operand))

theorem unary_local {expr : Parser Node} {least : Nat} (hexpr : Local least expr) :
    Local 1 (unary expr) := by
  have hprimary := primary_local hexpr
  intro ts
  refine Traced.within _ ((Traced.accept .plus).bind fun b ts => ?_)
  cases b with
  | true => exact hprimary ts
  | false =>
    refine (Traced.accept .minus).bind fun b ts => ?_
    cases b with
    | true => exact (hprimary ts).bind_first fun e _ => Traced.pure _
    | false => exact hprimary ts

theorem chainRest_local {level : Level} {next : Parser Node} {least : Nat}
    (hnext : Local least next) (bound : Nat) (left : Node) :
    Local 0 (chainRest level next bound left) := by
  induction bound generalizing left with
  | zero => exact fun ts => Traced.pure left
  | succ bound ih =>
    intro ts
    cases hop : (ts.head?.map (·.kind)).bind level.operator? with
    | none =>
      refine Traced.get (fun c hc => ?_) (Traced.pure left)
      rw [Cursor.kind?, hc.kind?, hop]
    | some op =>
      obtain ⟨k, hk, -⟩ := Option.bind_eq_some_iff.1 hop
      obtain ⟨t, -, hts⟩ := took_of_next hk
      refine Traced.get (g := do advance; chainRest level next bound (.binary op left (← next)))
        (fun c hc => ?_) ?_
      · rw [Cursor.kind?, hc.kind?, hop]
      · rw [hts]
        exact (Traced.advance t _).bind fun _ rest => (hnext rest).bind fun right => ih _

theorem chain_local (level : Level) {next : Parser Node} (hnext : Local 1 next) (bound : Nat) :
    Local 1 (chain level bound next) := fun ts =>
  Traced.within _ ((hnext ts).bind_first fun first => chainRest_local hnext bound first)

theorem operation_local {expr : Parser Node} {least : Nat} (hexpr : Local least expr)
    (bound : Nat) : Local 1 (operation bound expr) :=
  chain_local .equality (chain_local .relational (chain_local .add (chain_local .mul
    (unary_local hexpr) bound) bound) bound) bound

theorem assignRest_apply (bound : Nat) (spot : Cursor) (left : Node) (c : Cursor) :
    assignRest bound spot left c =
      (if c.kind? = some .assign then
        match left with
        | .ident _ => do advance; return .binary .assign left (← assign bound)
        | _ => failAt spot (.invalidTarget left)
      else pure left : Parser Node) c :=
  rfl

theorem assignRest_misses {left : Node} (hleft : ∀ name, left ≠ .ident name) (c : Cursor)
    (hk : c.kind? = some .assign) (bound : Nat) (spot : Cursor) :
    Misses (assignRest bound spot left) c := by
  refine ⟨⟨spot.place, spot.near, .invalidTarget left, c.trail.reverse⟩, c, ?_, left, rfl⟩
  rw [assignRest_apply, if_pos hk]
  cases left with
  | ident name => exact absurd rfl (hleft name)
  | _ => rfl

theorem assignRest_local {bound least : Nat} (h : Local least (assign bound)) (spot : Cursor)
    (left : Node) : Local 0 (assignRest bound spot left) := by
  intro ts
  by_cases hk : Next .assign ts
  · obtain ⟨t, -, hts⟩ := took_of_next hk
    by_cases hleft : ∃ name, left = .ident name
    · obtain ⟨name, rfl⟩ := hleft
      refine Traced.get
        (g := do advance; return .binary .assign (.ident name) (← assign bound)) (fun c hc => ?_) ?_
      · exact if_pos (hc.kind?.trans hk)
      · rw [hts]
        exact (Traced.advance t _).bind fun _ rest => (h rest).bind fun _ _ => Traced.pure _
    · exact .misses fun ending trail =>
        assignRest_misses (fun name heq => hleft ⟨name, heq⟩) ⟨ts, ending, trail⟩ hk bound spot
  · refine Traced.get (fun c hc => ?_) (Traced.pure left)
    exact if_neg fun hnext => hk (hc.kind?.symm.trans hnext)

/-- The spot at which an assignment starts matters only if its target is missed. -/
theorem assignRest_spot (bound : Nat) (spot spot' : Cursor) (left : Node) (c : Cursor) :
    assignRest bound spot left c = assignRest bound spot' left c ∨
      Misses (assignRest bound spot left) c ∧ Misses (assignRest bound spot' left) c := by
  by_cases hk : c.kind? = some .assign
  · by_cases hleft : ∃ name, left = .ident name
    · obtain ⟨name, rfl⟩ := hleft
      left
      rw [assignRest_apply, assignRest_apply, if_pos hk]
    · have hname : ∀ name, left ≠ .ident name := fun name heq => hleft ⟨name, heq⟩
      exact .inr ⟨assignRest_misses hname c hk bound spot, assignRest_misses hname c hk bound spot'⟩
  · left
    rw [assignRest_apply, assignRest_apply, if_neg hk, if_neg hk]

theorem assign_local (bound : Nat) : Local 1 (assign bound) := by
  induction bound with
  | zero => exact fun ts => Traced.fail _
  | succ bound ih =>
    intro ts
    have hexpr : Local 1 (within .expr (assign bound)) := fun ts => (ih ts).within _
    have hrest := (operation_local hexpr bound ts).bind_first
      (assignRest_local ih ⟨ts, .start, []⟩)
    refine Traced.within _ (Traced.get_spot (fun spot c => ?_) hrest)
    change (operation bound (within .expr (assign bound)) >>= assignRest bound spot) c = _ ∨ _
    cases hleft : operation bound (within .expr (assign bound)) c with
    | error r d =>
      left
      rw [bind_of_error hleft, bind_of_error hleft]
    | ok left d =>
      rcases assignRest_spot bound spot ⟨ts, .start, []⟩ left d with heq | ⟨hmiss, hmiss'⟩
      · left
        rw [bind_of_ok hleft, bind_of_ok hleft]
        exact heq
      · exact .inr ⟨Misses.bind hleft hmiss, Misses.bind hleft hmiss'⟩

theorem expression_local (bound : Nat) : Local 1 (expression bound) :=
  fun ts => (assign_local bound ts).within _

/-! ## Statements -/

theorem expressionThen_local (bound : Nat) (terminator : Token.Kind) :
    Local 1 (expressionThen bound terminator) := fun ts =>
  (expression_local bound ts).bind_first fun e _ =>
    (Traced.expect terminator).bind fun _ _ => Traced.pure e

theorem clause_local (bound : Nat) (terminator : Token.Kind) :
    Local 0 (clause bound terminator) := by
  intro ts
  refine (Traced.accept terminator).bind fun b ts => ?_
  cases b with
  | true => exact Traced.pure none
  | false => exact (expressionThen_local bound terminator ts).bind fun e _ => Traced.pure (some e)

/-- The keyword is there. -/
theorem condition_traced (bound : Nat) (t : Token) (ts : List Token) :
    Traced 1 (condition bound) (t :: ts) :=
  (Traced.advance t ts).bind fun _ _ => (Traced.expect .leftParen).bind fun _ =>
    expressionThen_local bound .rightParen

theorem blockRest_local {stmt : Parser Node} {least : Nat} (hstmt : Local least stmt)
    (bound : Nat) : Local 0 (blockRest stmt bound) := by
  induction bound with
  | zero => exact fun ts => Traced.fail _
  | succ bound ih =>
    intro ts
    refine (Traced.accept .rightBrace).bind fun b ts => ?_
    cases b with
    | true => exact Traced.pure []
    | false =>
      cases ts with
      | nil =>
        exact Traced.get_nil (fun _ _ => rfl)
          (Traced.fail (.expected [.kind .rightBrace, .statement]))
      | cons t ts =>
        exact Traced.get_cons (g := do let first ← stmt; return first :: (← blockRest stmt bound))
          (fun _ _ _ _ => rfl)
          ((hstmt _).bind fun first ts => (ih ts).bind fun others _ => Traced.pure _)

theorem statement_local (bound : Nat) : Local 1 (statement bound) := by
  induction bound with
  | zero => exact fun ts => Traced.fail _
  | succ bound ih =>
    intro ts
    refine Traced.within _ ?_
    apply Traced.get
    · intro c hc
      rw [Cursor.kind?, hc.kind?]
    split
    · next hk =>
      obtain ⟨t, -, hts⟩ := took_of_next hk
      rw [hts]
      exact (Traced.advance t _).bind fun _ ts =>
        (expressionThen_local (bound + 1) .semicolon ts).bind_first fun e _ => Traced.pure _
    · next hk =>
      obtain ⟨t, -, hts⟩ := took_of_next hk
      rw [hts]
      have helse : ∀ test yes, Local 0 (do
          if ← accept .elseWord then return Node.cond test yes (some (← statement bound))
          else return Node.cond test yes none) := by
        intro test yes ts
        refine (Traced.accept .elseWord).bind fun b ts => ?_
        cases b with
        | true => exact (ih ts).bind fun no _ => Traced.pure _
        | false => exact Traced.pure _
      exact (condition_traced (bound + 1) t _).bind fun test ts =>
        (ih ts).bind_first fun yes => helse test yes
    · next hk =>
      obtain ⟨t, -, hts⟩ := took_of_next hk
      rw [hts]
      exact (condition_traced (bound + 1) t _).bind fun test ts =>
        (ih ts).bind_first fun body _ => Traced.pure _
    · next hk =>
      obtain ⟨t, -, hts⟩ := took_of_next hk
      rw [hts]
      exact (Traced.advance t _).bind fun _ _ => (Traced.expect .leftParen).bind fun _ ts =>
        (clause_local (bound + 1) .semicolon ts).bind fun init ts =>
        (clause_local (bound + 1) .semicolon ts).bind fun test ts =>
        (clause_local (bound + 1) .rightParen ts).bind fun step ts =>
        (ih ts).bind_first fun body _ => Traced.pure _
    · next hk =>
      obtain ⟨t, -, hts⟩ := took_of_next hk
      rw [hts]
      exact Traced.within _ ((Traced.advance t _).bind_first fun _ ts =>
        (blockRest_local ih bound ts).bind fun body _ => Traced.pure _)
    · exact expressionThen_local (bound + 1) .semicolon ts

theorem statements_local (bound count : Nat) : Local 0 (statements bound count) := by
  induction count with
  | zero => exact fun ts => Traced.pure []
  | succ count ih =>
    intro ts
    cases ts with
    | nil => exact Traced.get_nil (fun _ _ => rfl) (Traced.pure [])
    | cons t ts =>
      exact Traced.get_cons (g := do
          let first ← statement bound
          return first :: (← statements bound count)) (fun _ _ _ _ => rfl)
        ((statement_local bound _).bind fun first ts => (ih ts).bind fun others _ => Traced.pure _)

theorem program_local (bound : Nat) : Local 0 (program bound) :=
  fun ts => (statements_local bound bound ts).within _

end Parser
end WordC
