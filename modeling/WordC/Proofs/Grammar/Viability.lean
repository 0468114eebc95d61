import WordC.Proofs.Grammar.Bound
/-!
Where the parser stops, it could have gone on.

The tokens in front of the one at which a rule fails, together with any token that the
rule asks for there, begin a phrase that the grammar derives.  `Viable` says so of a
reader, and is put together along the parser's steps: what was read before may be
followed by anything else, and what was to be read after can be completed from nothing.
An `else` is the one token to be wary of, since it may not follow every statement.
-/

namespace WordC
namespace Grammar

open WordC.Parser

/-! ## What follows a phrase -/

/-- The tokens after a phrase may be others, if they bring no new `else`. -/
def Shifts {α : Type} (R : List Token → α → List Token → Prop) : Prop :=
  ∀ ⦃ts a rest⦄, R ts a rest → ∃ pre, ts = pre ++ rest ∧
    ∀ us, (Next .elseWord us → Next .elseWord rest) → R (pre ++ us) a us

/-- A phrase that ends where it does whatever comes next. -/
theorem Shifts.of_free {α : Type} {R : List Token → α → List Token → Prop}
    (h : ∀ ⦃ts a rest⦄, R ts a rest → ∃ pre, ts = pre ++ rest ∧ ∀ us, R (pre ++ us) a us) :
    Shifts R := by
  intro ts a rest hR
  obtain ⟨pre, hts, hshift⟩ := h hR
  exact ⟨pre, hts, fun us _ => hshift us⟩

mutual

theorem Primary.shift {ts rest : List Token} {e : Node} (h : Primary ts e rest) :
    ∃ pre, ts = pre ++ rest ∧ ∀ us, Primary (pre ++ us) e us := by
  match h with
  | .number (t := t) hk hne hall hsmall => exact ⟨[t], rfl, fun us => .number hk hne hall hsmall⟩
  | .name (t := t) hk => exact ⟨[t], rfl, fun us => .name hk⟩
  | .parens (t := t) (u := u) hopen hinside hclose =>
    obtain ⟨pre, rfl, hshift⟩ := hinside.shift
    refine ⟨t :: pre ++ [u], by simp, fun us => ?_⟩
    rw [List.append_assoc]
    exact .parens hopen (hshift (u :: us)) hclose

theorem Unary.shift {ts rest : List Token} {e : Node} (h : Unary ts e rest) :
    ∃ pre, ts = pre ++ rest ∧ ∀ us, Unary (pre ++ us) e us := by
  match h with
  | .plain h =>
    obtain ⟨pre, rfl, hshift⟩ := h.shift
    exact ⟨pre, rfl, fun us => .plain (hshift us)⟩
  | .plus (t := t) hk h =>
    obtain ⟨pre, rfl, hshift⟩ := h.shift
    exact ⟨t :: pre, rfl, fun us => .plus hk (hshift us)⟩
  | .minus (t := t) hk h =>
    obtain ⟨pre, rfl, hshift⟩ := h.shift
    exact ⟨t :: pre, rfl, fun us => .minus hk (hshift us)⟩

theorem Operand.shift {level : Level} {ts rest : List Token} {e : Node}
    (h : Operand level ts e rest) :
    ∃ pre, ts = pre ++ rest ∧ ∀ us, Operand level (pre ++ us) e us := by
  match h with
  | .chain hinner h =>
    obtain ⟨pre, rfl, hshift⟩ := h.shift
    exact ⟨pre, rfl, fun us => .chain hinner (hshift us)⟩
  | .unary hinner h =>
    obtain ⟨pre, rfl, hshift⟩ := h.shift
    exact ⟨pre, rfl, fun us => .unary hinner (hshift us)⟩

theorem Tail.shift {level : Level} {ts rest : List Token} {steps : List (Operator × Node)}
    (h : Tail level ts steps rest) :
    ∃ pre, ts = pre ++ rest ∧ ∀ us, Tail level (pre ++ us) steps us := by
  match h with
  | .nil => exact ⟨[], rfl, fun us => .nil⟩
  | .cons (t := t) hop hoperand htail =>
    obtain ⟨pre, rfl, hshift⟩ := hoperand.shift
    obtain ⟨pre', rfl, hshift'⟩ := htail.shift
    refine ⟨t :: pre ++ pre', by simp, fun us => ?_⟩
    rw [List.append_assoc]
    exact .cons hop (hshift (pre' ++ us)) (hshift' us)

theorem Chain.shift {level : Level} {ts rest : List Token} {e : Node}
    (h : Chain level ts e rest) : ∃ pre, ts = pre ++ rest ∧ ∀ us, Chain level (pre ++ us) e us := by
  match h with
  | .fold hoperand htail =>
    obtain ⟨pre, rfl, hshift⟩ := hoperand.shift
    obtain ⟨pre', rfl, hshift'⟩ := htail.shift
    refine ⟨pre ++ pre', by simp, fun us => ?_⟩
    rw [List.append_assoc]
    exact .fold (hshift (pre' ++ us)) (hshift' us)

theorem Assign.shift {ts rest : List Token} {e : Node} (h : Assign ts e rest) :
    ∃ pre, ts = pre ++ rest ∧ ∀ us, Assign (pre ++ us) e us := by
  match h with
  | .plain h =>
    obtain ⟨pre, rfl, hshift⟩ := h.shift
    exact ⟨pre, rfl, fun us => .plain (hshift us)⟩
  | .assign (t := t) htarget hk hvalue =>
    obtain ⟨pre, rfl, hshift⟩ := htarget.shift
    obtain ⟨pre', rfl, hshift'⟩ := hvalue.shift
    refine ⟨pre ++ t :: pre', by simp, fun us => ?_⟩
    rw [List.append_assoc]
    exact .assign (hshift (t :: pre' ++ us)) hk (hshift' us)

theorem Expr.shift {ts rest : List Token} {e : Node} (h : Expr ts e rest) :
    ∃ pre, ts = pre ++ rest ∧ ∀ us, Expr (pre ++ us) e us := by
  match h with
  | .assign h =>
    obtain ⟨pre, rfl, hshift⟩ := h.shift
    exact ⟨pre, rfl, fun us => .assign (hshift us)⟩

end

theorem Clause.shift {k : Token.Kind} {ts rest : List Token} {o : Option Node}
    (h : Clause k ts o rest) : ∃ pre, ts = pre ++ rest ∧ ∀ us, Clause k (pre ++ us) o us := by
  cases h with
  | @omitted t _ hk => exact ⟨[t], rfl, fun us => .omitted hk⟩
  | @given t _ _ e h hk =>
    obtain ⟨pre, rfl, hshift⟩ := h.shift
    refine ⟨pre ++ [t], by simp, fun us => ?_⟩
    rw [List.append_assoc]
    exact .given (hshift (t :: us)) hk

theorem Condition.shift {k : Token.Kind} {ts rest : List Token} {e : Node}
    (h : Condition k ts e rest) : ∃ pre, ts = pre ++ rest ∧ ∀ us, Condition k (pre ++ us) e us := by
  cases h with
  | @parens t u v _ _ _ hk hopen h hclose =>
    obtain ⟨pre, rfl, hshift⟩ := h.shift
    refine ⟨t :: u :: pre ++ [v], by simp, fun us => ?_⟩
    rw [List.append_assoc]
    exact .parens hk hopen (hshift (v :: us)) hclose

/-- The next token after some tokens is theirs, if there are any. -/
theorem next_append {k : Token.Kind} {pre : List Token} {us rest : List Token}
    (h : Next k us → Next k rest) : Next k (pre ++ us) → Next k (pre ++ rest) := by
  cases pre with
  | nil => exact h
  | cons t pre => exact id

mutual

theorem Stmt.shift {ts rest : List Token} {n : Node} (h : Stmt ts n rest) :
    ∃ pre, ts = pre ++ rest ∧
      ∀ us, (Next .elseWord us → Next .elseWord rest) → Stmt (pre ++ us) n us := by
  match h with
  | .expr (t := t) h hk =>
    obtain ⟨pre, rfl, hshift⟩ := h.shift
    refine ⟨pre ++ [t], by simp, fun us _ => ?_⟩
    rw [List.append_assoc]
    exact .expr (hshift (t :: us)) hk
  | .ret (t := t) (u := u) hword h hk =>
    obtain ⟨pre, rfl, hshift⟩ := h.shift
    refine ⟨t :: pre ++ [u], by simp, fun us _ => ?_⟩
    rw [List.append_assoc]
    exact .ret hword (hshift (u :: us)) hk
  | .ifOnly hcondition hyes hend =>
    obtain ⟨pre, rfl, hshift⟩ := hcondition.shift
    obtain ⟨pre', rfl, hshift'⟩ := hyes.shift
    refine ⟨pre ++ pre', by simp, fun us hus => ?_⟩
    rw [List.append_assoc]
    exact .ifOnly (hshift (pre' ++ us)) (hshift' us hus) fun hnext => hend (hus hnext)
  | .ifElse (t := t) hcondition hyes hword hno =>
    obtain ⟨pre, rfl, hshift⟩ := hcondition.shift
    obtain ⟨pre₁, rfl, hshift₁⟩ := hyes.shift
    obtain ⟨pre₂, rfl, hshift₂⟩ := hno.shift
    refine ⟨pre ++ (pre₁ ++ t :: pre₂), by simp, fun us hus => ?_⟩
    rw [List.append_assoc, List.append_assoc]
    exact .ifElse (hshift _) (hshift₁ (t :: pre₂ ++ us) id) hword (hshift₂ us hus)
  | .loop hcondition hbody =>
    obtain ⟨pre, rfl, hshift⟩ := hcondition.shift
    obtain ⟨pre', rfl, hshift'⟩ := hbody.shift
    refine ⟨pre ++ pre', by simp, fun us hus => ?_⟩
    rw [List.append_assoc]
    exact .loop (hshift (pre' ++ us)) (hshift' us hus)
  | .iter (t := t) (u := u) hword hopen hinit htest hstep hbody =>
    obtain ⟨pre, rfl, hshift⟩ := hinit.shift
    obtain ⟨pre₁, rfl, hshift₁⟩ := htest.shift
    obtain ⟨pre₂, rfl, hshift₂⟩ := hstep.shift
    obtain ⟨pre₃, rfl, hshift₃⟩ := hbody.shift
    refine ⟨t :: u :: (pre ++ (pre₁ ++ (pre₂ ++ pre₃))), by simp, fun us hus => ?_⟩
    simp only [List.cons_append, List.append_assoc]
    exact .iter hword hopen (hshift _) (hshift₁ _) (hshift₂ _) (hshift₃ us hus)
  | .block (t := t) (u := u) hopen hbody hclose =>
    obtain ⟨pre, rfl, hshift⟩ := hbody.shift
    refine ⟨t :: pre ++ [u], by simp, fun us _ => ?_⟩
    rw [List.append_assoc]
    exact .block hopen (hshift (u :: us) id) hclose

theorem Stmts.shift {ts rest : List Token} {ns : List Node} (h : Stmts ts ns rest) :
    ∃ pre, ts = pre ++ rest ∧
      ∀ us, (Next .elseWord us → Next .elseWord rest) → Stmts (pre ++ us) ns us := by
  match h with
  | .nil => exact ⟨[], rfl, fun us _ => .nil⟩
  | .cons hfirst hothers =>
    obtain ⟨pre, rfl, hshift⟩ := hfirst.shift
    obtain ⟨pre', rfl, hshift'⟩ := hothers.shift
    refine ⟨pre ++ pre', by simp, fun us hus => ?_⟩
    rw [List.append_assoc]
    exact .cons (hshift (pre' ++ us) (next_append hus)) (hshift' us hus)

end

/-! ## Phrases from nothing -/

/-- The tokens begin a phrase that can be completed, whatever follows it but an `else`. -/
def Begins {α : Type} (R : List Token → α → List Token → Prop) (ts : List Token) : Prop :=
  ∃ more a, ∀ us, ¬ Next .elseWord us → R (ts ++ (more ++ us)) a us

/-- A phrase can be written that does not start with `else`. -/
def Writable {α : Type} (R : List Token → α → List Token → Prop) : Prop :=
  ∃ more a, ¬ Next .elseWord more ∧ ∀ us, ¬ Next .elseWord us → R (more ++ us) a us

/-- The tokens, and after them any of the kinds that are wanted, begin a phrase. -/
structure Invites {α : Type} (R : List Token → α → List Token → Prop) (pre : List Token)
    (wanted : List Expectation) : Prop where
  one : ∃ k, .kind k ∈ wanted
  every : ∀ k, .kind k ∈ wanted →
    k ≠ .elseWord ∧ ∃ t : Token, t.kind = k ∧ t.Proper ∧ Begins R (pre ++ [t])

theorem not_next_append {k : Token.Kind} {ts us : List Token} (hts : ¬ Next k ts)
    (hus : ¬ Next k us) : ¬ Next k (ts ++ us) := by
  cases ts with
  | nil => exact hus
  | cons t ts => exact hts

section Phrases

variable {α β : Type} {R : List Token → α → List Token → Prop}
  {S : List Token → β → List Token → Prop} {pre : List Token} {wanted : List Expectation}

theorem Begins.map {f : α → β} {ts ts' : List Token} (h : Begins R ts)
    (hRS : ∀ us a rest, R (ts ++ us) a rest → S (ts' ++ us) (f a) rest) : Begins S ts' := by
  obtain ⟨more, a, hmore⟩ := h
  exact ⟨more, f a, fun us hus => hRS _ _ _ (hmore us hus)⟩

theorem Invites.map {f : α → β} {pre' : List Token} (h : Invites R pre wanted)
    (hRS : ∀ us a rest, R (pre ++ us) a rest → S (pre' ++ us) (f a) rest) :
    Invites S pre' wanted := by
  refine ⟨h.one, fun k hk => ?_⟩
  obtain ⟨helse, t, ht, hproper, hbegins⟩ := h.every k hk
  refine ⟨helse, t, ht, hproper, hbegins.map (f := f) fun us a rest hR => ?_⟩
  rw [List.append_assoc] at hR ⊢
  exact hRS _ _ _ hR

variable {T : α → List Token → β → List Token → Prop}

/-- What begins a first phrase begins both, if a second one can be written. -/
theorem Invites.append (h : Invites R pre wanted) (hT : ∀ a, Writable (T a)) :
    Invites (fun ts b rest => ∃ a mid, R ts a mid ∧ T a mid b rest) pre wanted := by
  refine ⟨h.one, fun k hk => ?_⟩
  obtain ⟨helse, t, ht, hproper, more, a, hmore⟩ := h.every k hk
  obtain ⟨more', b, helse', hmore'⟩ := hT a
  refine ⟨helse, t, ht, hproper, more ++ more', b, fun us hus => ?_⟩
  rw [List.append_assoc more]
  exact ⟨a, more' ++ us, hmore _ (not_next_append helse' hus), hmore' us hus⟩

/-- What begins a second phrase begins both, after a first one that was there. -/
theorem Invites.after {pre' rest mid : List Token} {a : α}
    (hshift : ∀ us, (Next .elseWord us → Next .elseWord mid) → R (pre' ++ us) a us)
    (hmid : mid = pre ++ rest) (h : Invites (T a) pre wanted) :
    Invites (fun ts b rest => ∃ a mid, R ts a mid ∧ T a mid b rest) (pre' ++ pre) wanted := by
  refine ⟨h.one, fun k hk => ?_⟩
  obtain ⟨helse, t, ht, hproper, more, b, hmore⟩ := h.every k hk
  refine ⟨helse, t, ht, hproper, more, b, fun us hus => ?_⟩
  rw [List.append_assoc pre', List.append_assoc pre']
  refine ⟨a, _, hshift _ ?_, hmore us hus⟩
  rw [hmid, List.append_assoc]
  refine next_append fun hnext => absurd ?_ helse
  rw [← ht]
  exact Option.some.inj hnext

theorem Writable.bind (hR : Writable R) (hT : ∀ a, Writable (T a)) :
    Writable (fun ts b rest => ∃ a mid, R ts a mid ∧ T a mid b rest) := by
  obtain ⟨more, a, helse, hmore⟩ := hR
  obtain ⟨more', b, helse', hmore'⟩ := hT a
  refine ⟨more ++ more', b, not_next_append helse helse', fun us hus => ?_⟩
  rw [List.append_assoc]
  exact ⟨a, more' ++ us, hmore _ (not_next_append helse' hus), hmore' us hus⟩

theorem Writable.map {f : α → β} (h : Writable R)
    (hRS : ∀ ts a rest, ¬ Next .elseWord rest → R ts a rest → S ts (f a) rest) : Writable S := by
  obtain ⟨more, a, helse, hmore⟩ := h
  exact ⟨more, f a, helse, fun us hus => hRS _ _ _ hus (hmore us hus)⟩

end Phrases

end Grammar

/-- A token of each kind. -/
def Token.sample (k : Token.Kind) : Token where
  kind := k
  content := if k = .number then utf8 "0" else if k = .name then utf8 "x" else k.text
  place := .start

theorem Token.proper_sample (k : Token.Kind) : (Token.sample k).Proper := by
  have hkind : (sample k).kind = k := rfl
  rw [Proper, hkind]
  split
  · next hnumber =>
    subst hnumber
    exact ⟨by decide, by decide⟩
  · next hnumber =>
    split
    · next hname =>
      subst hname
      exact ⟨by decide, by decide⟩
    · next hname => exact (if_neg hnumber).trans (if_neg hname)

namespace Parser

open Grammar

theorem not_next_sample {k : Token.Kind} (hk : k ≠ .elseWord) (ts : List Token) :
    ¬ Next .elseWord (.sample k :: ts) :=
  fun hnext => hk (Option.some.inj hnext)

/-- Where the reader fails, the tokens it has taken and what it asks for begin a phrase of
the relation. -/
def ViableAt {α : Type} (p : Parser α) (R : List Token → α → List Token → Prop) (c : Cursor) :
    Prop :=
  ∀ ⦃r d⦄, p c = .error r d → ¬ r.OffTarget →
    ∃ pre, c.rest = pre ++ d.rest ∧ Invites R pre r.cause.wanted

/-- So it is wherever it starts. -/
def Viable {α : Type} (p : Parser α) (R : List Token → α → List Token → Prop) : Prop :=
  ∀ c : Cursor, (∀ t ∈ c.rest, t.Proper) → ViableAt p R c

namespace ViableAt

variable {α β : Type} {R : List Token → α → List Token → Prop}
  {S : List Token → β → List Token → Prop} {p : Parser α} {c : Cursor}

theorem pure (a : α) : ViableAt (pure a) R c := by
  intro r d h
  cases h

theorem fail {cause : Rejection.Cause} (h : Invites R [] cause.wanted) :
    ViableAt (fail cause) R c := by
  intro r d hp _
  cases hp
  exact ⟨[], rfl, h⟩

theorem accepted {ts rest : List Token} {a : α} {ending : Place} {trail : List Production}
    (h : Reads p ts a rest) : ViableAt p R ⟨ts, ending, trail⟩ := by
  intro r d hp
  cases hp.symm.trans (h ending trail)

theorem refused {ts : List Token} {near : Text} {cause : Rejection.Cause}
    {inner : List Production} {ending : Place} {trail : List Production}
    (h : Refuses p ts ts near cause inner) (hinvites : Invites R [] cause.wanted) :
    ViableAt p R ⟨ts, ending, trail⟩ := by
  intro r d hp _
  cases hp.symm.trans (h ending trail)
  exact ⟨[], rfl, hinvites⟩

theorem within (production : Production)
    (h : ViableAt p R { c with trail := production :: c.trail }) :
    ViableAt (within production p) R c := by
  intro r d hp hr
  unfold Parser.within at hp
  split at hp
  · cases hp
  · next r' d' hp' =>
    cases hp
    obtain ⟨pre, hc, hinvites⟩ := h hp' hr
    exact ⟨pre, hc, hinvites⟩

/-- The result is changed, and nothing more is read. -/
theorem map {f : α → β} (h : ViableAt p R c) (hRS : ∀ ts a rest, R ts a rest → S ts (f a) rest) :
    ViableAt (do return f (← p)) S c := by
  intro r d hp hr
  rcases bind_error hp with hp | ⟨a, c', -, hpure⟩
  · obtain ⟨pre, hc, hinvites⟩ := h hp hr
    exact ⟨pre, hc, hinvites.map fun us a rest => hRS _ a rest⟩
  · cases hpure

theorem mono {R' : List Token → α → List Token → Prop} (h : ViableAt p R c)
    (hR : ∀ ts a rest, R ts a rest → R' ts a rest) : ViableAt p R' c := by
  intro r d hp hr
  obtain ⟨pre, hc, hinvites⟩ := h hp hr
  exact ⟨pre, hc, hinvites.map (f := id) fun us a rest => hR _ a rest⟩

/-- The reader goes on as another one does after the tokens `pre`. -/
theorem step {p q : Parser β} {T : List Token → β → List Token → Prop} {c' : Cursor}
    (pre : List Token) (h : ViableAt q T c') (hrun : p c = q c') (hc : c.rest = pre ++ c'.rest)
    (hS : ∀ ts b rest, T ts b rest → S (pre ++ ts) b rest) : ViableAt p S c := by
  intro r d hp hr
  obtain ⟨pre', hc', hinvites⟩ := h (hrun.symm.trans hp) hr
  refine ⟨pre ++ pre', by rw [hc, hc', List.append_assoc], ?_⟩
  refine hinvites.map (f := id) fun us b rest hb => ?_
  rw [List.append_assoc]
  exact hS _ b rest hb

/-- The first of two readers takes the tokens `pre`. -/
theorem after {f : α → Parser β} {T : List Token → β → List Token → Prop} {a : α} {c' : Cursor}
    (pre : List Token) (hrun : p c = .ok a c') (hc : c.rest = pre ++ c'.rest)
    (h : ViableAt (f a) T c') (hS : ∀ ts b rest, T ts b rest → S (pre ++ ts) b rest) :
    ViableAt (p >>= f) S c :=
  step pre h (bind_of_ok hrun) hc hS

/-- Two readers one after the other.  If the first one fails, the phrase of the second is
written from nothing; if the second one fails, that of the first stays. -/
theorem bind {f : α → Parser β} {T : α → List Token → β → List Token → Prop}
    (hproper : ∀ t ∈ c.rest, t.Proper) (hp : ViableAt p R c)
    (hsound : ∀ ⦃a c'⦄, p c = .ok a c' →
      ∃ rest, c' = { c with rest := rest } ∧ rest <:+ c.rest ∧ R c.rest a rest)
    (hR : Shifts R) (hf : ∀ a, Viable (f a) (T a)) (hT : ∀ a, Writable (T a)) :
    ViableAt (p >>= f) (fun ts b rest => ∃ a mid, R ts a mid ∧ T a mid b rest) c := by
  intro r d hrun hr
  rcases bind_error hrun with hfirst | ⟨a, m, hm, hsecond⟩
  · obtain ⟨pre, hc, hinvites⟩ := hp hfirst hr
    exact ⟨pre, hc, hinvites.append hT⟩
  · obtain ⟨mid, rfl, hsuffix, hread⟩ := hsound hm
    obtain ⟨pre', hmid, hinvites⟩ := hf a { c with rest := mid }
      (fun t ht => hproper t (hsuffix.subset ht)) hsecond hr
    obtain ⟨pre, hc, hshift⟩ := hR hread
    dsimp only at hmid
    exact ⟨pre ++ pre', by rw [hc, hmid, List.append_assoc], .after hshift hmid hinvites⟩

end ViableAt

namespace Viable

variable {α β : Type} {R : List Token → α → List Token → Prop} {p : Parser α}
  {S T : List Token → β → List Token → Prop} {k : Token.Kind}

theorem mono {R' : List Token → α → List Token → Prop} (h : Viable p R)
    (hR : ∀ ts a rest, R ts a rest → R' ts a rest) : Viable p R' :=
  fun c hproper => (h c hproper).mono hR

theorem map {f : α → β} (h : Viable p R) (hRS : ∀ ts a rest, R ts a rest → S ts (f a) rest) :
    Viable (do return f (← p)) S :=
  fun c hproper => (h c hproper).map hRS

theorem within (production : Production) (h : Viable p R) : Viable (within production p) R :=
  fun _ hproper => .within _ (h _ hproper)

theorem bind {f : α → Parser β} {T : α → List Token → β → List Token → Prop} (hp : Viable p R)
    (hsound : Sound p R) (hR : Shifts R) (hf : ∀ a, Viable (f a) (T a))
    (hT : ∀ a, Writable (T a)) :
    Viable (p >>= f) (fun ts b rest => ∃ a mid, R ts a mid ∧ T a mid b rest) :=
  fun c hproper => .bind hproper (hp c hproper) (fun _ _ h => hsound hproper h) hR hf hT

theorem accept {f : Bool → Parser β} (htrue : Viable (f true) T) (hfalse : Viable (f false) S)
    (hS : ∀ t ts b rest, t.kind = k → T ts b rest → S (t :: ts) b rest) :
    Viable (accept k >>= f) S := by
  intro c hproper
  obtain ⟨ts, ending, trail⟩ := c
  cases ts with
  | nil =>
    have hpass : ¬ Next k [] := by simp [Next]
    exact .after [] (Reads.pass hpass ending trail) rfl (hfalse _ hproper) fun _ _ _ h => h
  | cons t ts =>
    by_cases ht : t.kind = k
    · exact .after [t] (Reads.accept ht ending trail) rfl
        (htrue _ (List.forall_mem_cons.1 hproper).2) (hS t · · · ht)
    · have hpass : ¬ Next k (t :: ts) := fun hnext => ht (Option.some.inj hnext)
      exact .after [] (Reads.pass hpass ending trail) rfl (hfalse _ hproper) fun _ _ _ h => h

end Viable

theorem expect_viable {k : Token.Kind} (hk : k ≠ .elseWord) :
    Viable (expect k) (fun ts _ rest => Took k ts rest) := by
  refine Viable.accept (T := fun ts _ rest => rest = ts) (fun c _ => .pure ())
    (fun c _ => .fail ?_) ?_
  · refine ⟨⟨k, List.mem_cons_self⟩, fun k' hk' => ?_⟩
    obtain rfl : k' = k := by simpa [Rejection.Cause.wanted] using hk'
    exact ⟨hk, .sample k', rfl, Token.proper_sample k', [], (), fun us _ => ⟨_, rfl, rfl⟩⟩
  · rintro t ts _ rest ht rfl
    exact ⟨t, ht, rfl⟩

theorem shifts_took (k : Token.Kind) : Shifts (fun ts (_ : Unit) rest => Took k ts rest) := by
  rintro ts _ rest ⟨t, ht, rfl⟩
  exact ⟨[t], rfl, fun us _ => ⟨t, ht, rfl⟩⟩

/-- A token that has to be there, and what comes after it. -/
theorem Viable.expect {β : Type} {S T : List Token → β → List Token → Prop} {k : Token.Kind}
    {f : Unit → Parser β} (hk : k ≠ .elseWord) (hf : Viable (f ()) T) (hT : Writable T)
    (hS : ∀ t ts b rest, t.kind = k → T ts b rest → S (t :: ts) b rest) :
    Viable (expect k >>= f) S := by
  have hrest := (expect_viable hk).bind (expect_sound k) (shifts_took k) (fun _ => hf) fun _ => hT
  refine hrest.mono ?_
  rintro ts b rest ⟨_, mid, ⟨t, ht, rfl⟩, hb⟩
  exact hS t mid b rest ht hb

/-- A phrase and the token that ends it. -/
theorem Viable.closed {α : Type} {R : List Token → α → List Token → Prop} {p : Parser α}
    {k : Token.Kind} (hk : k ≠ .elseWord) (hp : Viable p R) (hsound : Sound p R) (hR : Shifts R) :
    Viable (do let a ← p; Parser.expect k; return a)
      (fun ts a rest => ∃ t : Token, R ts a (t :: rest) ∧ t.kind = k) := by
  have hf : ∀ a : α, Viable (do Parser.expect k; return a)
      (fun ts b rest => Took k ts rest ∧ b = a) :=
    fun a => (expect_viable hk).map fun _ _ _ h => ⟨h, rfl⟩
  have hT : ∀ a : α, Writable (fun ts b rest => Took k ts rest ∧ b = a) :=
    fun a => ⟨[.sample k], a, not_next_sample hk _, fun us _ => ⟨⟨_, rfl, rfl⟩, rfl⟩⟩
  refine (hp.bind hsound hR hf hT).mono ?_
  rintro ts b rest ⟨a, mid, hread, ⟨t, ht, rfl⟩, rfl⟩
  exact ⟨t, hread, ht⟩

/-! ## Expressions -/

theorem assign_of_primary {ts rest : List Token} {e : Node} (h : Primary ts e rest) :
    Assign ts e rest :=
  have hmul : Chain .mul ts e rest := .fold (.unary rfl (.plain h)) .nil
  have hadd : Chain .add ts e rest := .fold (.chain rfl hmul) .nil
  have hrelational : Chain .relational ts e rest := .fold (.chain rfl hadd) .nil
  .plain (.fold (.chain rfl hrelational) .nil)

/-- The shortest expression, and the tokens that end it. -/
theorem expr_sample (us : List Token) : Expr (.sample .name :: us) (.ident (utf8 "x")) us :=
  .assign (assign_of_primary (.name rfl))

theorem primary_invites : Invites Primary [] Expectation.operand := by
  refine ⟨⟨.number, List.mem_cons_self⟩, fun k hk => ?_⟩
  have hbegins : k ∈ primaryKinds ∧ Begins Primary [.sample k] := by
    simp only [Expectation.operand, List.mem_cons, Expectation.kind.injEq, List.not_mem_nil,
      or_false] at hk
    rcases hk with rfl | rfl | rfl
    · exact ⟨by decide, [], _, fun us _ => .number rfl (by decide) (by decide) (by decide)⟩
    · exact ⟨by decide, [], _, fun us _ => .name rfl⟩
    · exact ⟨by decide, [.sample .name, .sample .rightParen], _, fun us _ =>
        .parens rfl (expr_sample _) rfl⟩
  refine ⟨?_, .sample k, rfl, Token.proper_sample k, hbegins.2⟩
  rintro rfl
  exact absurd hbegins.1 (by decide)

theorem number_invites : Invites Primary [] [.kind .number] := by
  refine ⟨⟨.number, List.mem_cons_self⟩, fun k hk => primary_invites.every k ?_⟩
  rw [List.mem_singleton.1 hk]
  exact List.mem_cons_self

/-- A literal that no word holds. -/
theorem refuses_number {expr : Parser Node} {content : Text} {place : Place} {ts : List Token}
    {e : Text.NumberError} (h : Text.readDecimal content = .error e) :
    Refuses (primary expr) (⟨.number, content, place⟩ :: ts) (⟨.number, content, place⟩ :: ts)
      content .literalOutOfRange [.primary] := by
  refine Refuses.within _ (Refuses.get fun _ _ ending trail => ?_)
  dsimp only
  rw [h]
  simp [Parser.fail, Parser.failAt, Cursor.near]

theorem shifts_expr : Shifts Expr := .of_free fun _ _ _ h => h.shift

theorem shifts_operand (level : Level) : Shifts (Operand level) := .of_free fun _ _ _ h => h.shift

section

variable {expr : Parser Node} (h : Viable expr Expr) (hsound : Sound expr Expr)

include h hsound

theorem primary_viable : Viable (primary expr) Primary := by
  intro c hproper
  obtain ⟨ts, ending, trail⟩ := c
  cases ts with
  | nil => exact .within _ (.fail primary_invites)
  | cons t ts =>
    obtain ⟨kind, content, place⟩ := t
    cases kind with
    | number =>
      cases hvalue : Text.readDecimal content with
      | error e => exact .refused (refuses_number hvalue) number_invites
      | ok value => exact .accepted (reads_number rfl hvalue)
    | name => exact .accepted (reads_name rfl)
    | leftParen =>
      have hclosed := h.closed (k := .rightParen) (by decide) hsound shifts_expr
      refine .within _ (.step [⟨.leftParen, content, place⟩]
        (hclosed ⟨ts, ending, .primary :: trail⟩ (List.forall_mem_cons.1 hproper).2)
        rfl rfl ?_)
      rintro us e rest ⟨u, hinside, hu⟩
      exact .parens rfl hinside hu
    | _ => exact .within _ (.fail primary_invites)

theorem unary_viable : Viable (unary expr) Unary := by
  have hprimary := primary_viable h hsound
  have hminus : Viable (do return Node.binary .sub (.num 0) (← primary expr))
      (fun ts n rest => ∃ e, Primary ts e rest ∧ n = .binary .sub (.num 0) e) :=
    hprimary.map fun _ e _ h => ⟨e, h, rfl⟩
  refine Viable.within _ (Viable.accept hprimary (Viable.accept hminus
    (hprimary.mono fun _ _ _ h => .plain h) ?_) fun _ _ _ _ ht h => .plus ht h)
  rintro t ts n rest ht ⟨e, he, rfl⟩
  exact .minus ht he

end

theorem chainRest_viable {level : Level} {next : Parser Node} (h : Viable next (Operand level))
    (hsound : Sound next (Operand level)) (bound : Nat) (left : Node) :
    Viable (chainRest level next bound left)
      (fun ts n rest => ∃ steps, Tail level ts steps rest ∧ n = leftward left steps) := by
  induction bound generalizing left with
  | zero => exact fun c _ => .pure left
  | succ bound ih =>
    intro c hproper
    obtain ⟨ts, ending, trail⟩ := c
    cases hop : (ts.head?.map (·.kind)).bind level.operator? with
    | none => exact .accepted fun _ _ => chainRest_stop (c := ⟨ts, _, _⟩) hop _ left
    | some op =>
      obtain ⟨k, hk, hop⟩ := Option.bind_eq_some_iff.1 hop
      obtain ⟨t, rfl, hts⟩ := took_of_next hk
      rw [hts] at hproper ⊢
      have hrest := h.bind hsound (shifts_operand level) (fun right => ih (.binary op left right))
        fun right => ⟨[], _, by simp [Next], fun us _ => ⟨[], .nil, rfl⟩⟩
      refine .step [t] (hrest ⟨_, ending, trail⟩ (List.forall_mem_cons.1 hproper).2)
        (chainRest_step hop bound left) rfl ?_
      rintro us n rest ⟨right, mid, hright, steps, htail, rfl⟩
      exact ⟨(op, right) :: steps, .cons (connects_iff.2 hop) hright htail, rfl⟩

theorem chain_viable (level : Level) {next : Parser Node} (h : Viable next (Operand level))
    (hsound : Sound next (Operand level)) (bound : Nat) :
    Viable (chain level bound next) (Chain level) := by
  refine Viable.within _ ((h.bind hsound (shifts_operand level)
    (fun first => chainRest_viable h hsound bound first)
    fun first => ⟨[], _, by simp [Next], fun us _ => ⟨[], .nil, rfl⟩⟩).mono ?_)
  rintro ts n rest ⟨first, mid, hfirst, steps, htail, rfl⟩
  exact .fold hfirst htail

theorem operation_viable {expr : Parser Node} (h : Viable expr Expr) (hsound : Sound expr Expr)
    (bound : Nat) : Viable (operation bound expr) (Chain .equality) := by
  have smul : Sound (unary expr) (Operand .mul) :=
    (unary_sound hsound).mono fun _ _ _ _ h => .unary rfl h
  have sadd : Sound (chain .mul bound (unary expr)) (Operand .add) :=
    (chain_sound .mul smul bound).mono fun _ _ _ _ h => .chain rfl h
  have srelational : Sound (chain .add bound (chain .mul bound (unary expr)))
      (Operand .relational) :=
    (chain_sound .add sadd bound).mono fun _ _ _ _ h => .chain rfl h
  have hunary := unary_viable h hsound
  have hmul := chain_viable .mul (hunary.mono fun _ _ _ h => .unary rfl h) smul bound
  have hadd := chain_viable .add (hmul.mono fun _ _ _ h => .chain rfl h) sadd bound
  have hrelational := chain_viable .relational (hadd.mono fun _ _ _ h => .chain rfl h)
    srelational bound
  exact chain_viable .equality (hrelational.mono fun _ _ _ h => .chain rfl h)
    ((chain_sound .relational srelational bound).mono fun _ _ _ _ h => .chain rfl h) bound

/-- What may follow the first operand of an assignment. -/
def Assigned (left : Node) (ts : List Token) (n : Node) (rest : List Token) : Prop :=
  n = left ∧ rest = ts ∨ ∃ name right t mid, left = .ident name ∧ n = .binary .assign left right ∧
    ts = t :: mid ∧ t.kind = .assign ∧ Assign mid right rest

theorem assignRest_viable {bound : Nat} (h : Viable (assign bound) Assign) (spot : Cursor)
    (left : Node) : Viable (assignRest bound spot left) (Assigned left) := by
  intro c hproper
  by_cases hk : c.kind? = some .assign
  · by_cases hleft : ∃ name, left = .ident name
    · obtain ⟨name, rfl⟩ := hleft
      obtain ⟨ts, ending, trail⟩ := c
      obtain ⟨t, ht, hts⟩ := took_of_next hk
      dsimp only at hts
      rw [hts] at hproper hk ⊢
      have hvalue := h.map (f := fun e => Node.binary .assign (.ident name) e)
        (S := fun us n rest =>
          ∃ right, n = .binary .assign (.ident name) right ∧ Assign us right rest)
        fun _ right _ h => ⟨right, rfl, h⟩
      refine .step [t] (hvalue ⟨_, ending, trail⟩ (List.forall_mem_cons.1 hproper).2)
        ?_ rfl ?_
      · rw [assignRest_apply, if_pos hk]
        rfl
      · rintro us n rest ⟨right, rfl, hright⟩
        exact .inr ⟨name, right, t, us, rfl, rfl, rfl, ht, hright⟩
    · intro r d hp hr
      obtain ⟨r', d', hmiss, hoff⟩ :=
        assignRest_misses (fun name heq => hleft ⟨name, heq⟩) c hk bound spot
      cases hp.symm.trans hmiss
      exact absurd hoff hr
  · intro r d hp
    rw [assignRest_apply, if_neg hk] at hp
    cases hp

theorem assign_viable (bound : Nat) : Viable (assign bound) Assign := by
  induction bound with
  | zero =>
    exact fun c _ => .fail (primary_invites.map (f := id) fun _ _ _ h => assign_of_primary h)
  | succ bound ih =>
    have hexpr : Viable (within .expr (assign bound)) Expr :=
      (ih.within _).mono fun _ _ _ h => .assign h
    have sexpr : Sound (within .expr (assign bound)) Expr :=
      ((assign_sound bound).within _).mono fun _ _ _ _ h => .assign h
    refine Viable.within _ fun c hproper => ?_
    have hrest := (operation_viable hexpr sexpr bound).bind (operation_sound sexpr bound)
      (.of_free fun _ _ _ h => h.shift) (fun left => assignRest_viable ih c left)
      fun left => ⟨[], left, by simp [Next], fun us _ => .inl ⟨rfl, rfl⟩⟩
    refine .step [] (hrest c hproper) rfl rfl ?_
    rintro ts n rest
      ⟨left, mid, hleft, ⟨rfl, rfl⟩ | ⟨name, right, t, mid', rfl, rfl, rfl, ht, hright⟩⟩
    · exact .plain hleft
    · exact .assign hleft ht hright

theorem expression_viable (bound : Nat) : Viable (expression bound) Expr :=
  ((assign_viable bound).within _).mono fun _ _ _ h => .assign h

/-! ## Statements -/

theorem shifts_clause (k : Token.Kind) : Shifts (Clause k) := .of_free fun _ _ _ h => h.shift

theorem shifts_stmt : Shifts Stmt := fun _ _ _ h => h.shift

theorem writable_exprThen (k : Token.Kind) :
    Writable (fun ts e rest => ∃ t : Token, Expr ts e (t :: rest) ∧ t.kind = k) :=
  ⟨[.sample .name, .sample k], _, not_next_sample (by decide) _, fun us _ =>
    ⟨.sample k, expr_sample _, rfl⟩⟩

theorem writable_clause {k : Token.Kind} (hk : k ≠ .elseWord) : Writable (Clause k) :=
  ⟨[.sample k], none, not_next_sample hk _, fun _ _ => .omitted rfl⟩

theorem writable_stmt : Writable Stmt :=
  (writable_exprThen .semicolon).map (f := id) fun _ _ _ _ ⟨_, h, ht⟩ => .expr h ht

theorem expressionThen_viable (bound : Nat) {k : Token.Kind} (hk : k ≠ .elseWord) :
    Viable (expressionThen bound k)
      (fun ts e rest => ∃ t : Token, Expr ts e (t :: rest) ∧ t.kind = k) :=
  (expression_viable bound).closed hk (expression_sound bound) shifts_expr

theorem clause_viable (bound : Nat) {k : Token.Kind} (hk : k ≠ .elseWord) :
    Viable (clause bound k) (Clause k) := by
  have hgiven : Viable (do return some (← expressionThen bound k)) (Clause k) :=
    (expressionThen_viable bound hk).map fun _ _ _ ⟨_, h, ht⟩ => .given h ht
  refine Viable.accept (T := fun ts o rest => o = none ∧ rest = ts) (fun c _ => .pure none)
    hgiven ?_
  rintro t ts o rest ht ⟨rfl, rfl⟩
  exact .omitted ht

/-- A condition after a keyword that is there, and what comes after it. -/
theorem condition_viable (bound : Nat) {t : Token} {ts : List Token} {ending : Place}
    {trail : List Production} (hproper : ∀ u ∈ t :: ts, u.Proper) {f : Node → Parser Node}
    {T : Node → List Token → Node → List Token → Prop} (hf : ∀ test, Viable (f test) (T test))
    (hT : ∀ test, Writable (T test)) :
    ViableAt (condition bound >>= f)
      (fun ts n rest => ∃ test mid, Condition t.kind ts test mid ∧ T test mid n rest)
      ⟨t :: ts, ending, trail⟩ := by
  have hparens : Viable (do expect .leftParen; expressionThen bound .rightParen)
      (fun ts e rest => ∀ t : Token, Condition t.kind (t :: ts) e rest) :=
    Viable.expect (by decide) (expressionThen_viable bound (by decide))
      (writable_exprThen .rightParen) fun _ _ _ _ hu ⟨_, h, hv⟩ _ => .parens rfl hu h hv
  have hcondition : ViableAt (condition bound) (Condition t.kind) ⟨t :: ts, ending, trail⟩ :=
    .step [t] (hparens ⟨ts, ending, trail⟩ (List.forall_mem_cons.1 hproper).2)
      rfl rfl fun _ _ _ h => h t
  refine .bind hproper hcondition (fun _ _ hrun => ?_) (.of_free fun _ _ _ h => h.shift) hf hT
  obtain ⟨rest, hc, hsuffix, h⟩ := condition_sound bound hproper hrun
  exact ⟨rest, hc, hsuffix, h _ rfl⟩

theorem block_invites :
    Invites (fun ts ns rest => ∃ u : Token, Stmts ts ns (u :: rest) ∧ u.kind = .rightBrace) []
      [.kind .rightBrace, .statement] := by
  refine ⟨⟨.rightBrace, List.mem_cons_self⟩, fun k hk => ?_⟩
  obtain rfl : k = .rightBrace := by simpa using hk
  exact ⟨by decide, .sample .rightBrace, rfl, Token.proper_sample _, [], [], fun us _ =>
    ⟨.sample .rightBrace, .nil, rfl⟩⟩

theorem blockRest_viable {stmt : Parser Node} (h : Viable stmt Stmt) (hsound : Sound stmt Stmt)
    (bound : Nat) :
    Viable (blockRest stmt bound)
      (fun ts ns rest => ∃ u : Token, Stmts ts ns (u :: rest) ∧ u.kind = .rightBrace) := by
  induction bound with
  | zero => exact fun c _ => .fail block_invites
  | succ bound ih =>
    have hothers : ∀ first, Viable (do return first :: (← blockRest stmt bound))
        (fun ts ns rest => ∃ others u, ns = first :: others ∧ Stmts ts others (u :: rest) ∧
          u.kind = .rightBrace) :=
      fun first => ih.map fun _ others _ ⟨u, h, hu⟩ => ⟨others, u, rfl, h, hu⟩
    have hrest := h.bind hsound shifts_stmt hothers fun first =>
      ⟨[.sample .rightBrace], _, not_next_sample (by decide) _, fun us _ => ⟨[], _, rfl, .nil, rfl⟩⟩
    refine Viable.accept (T := fun ts ns rest => ns = [] ∧ rest = ts) (fun c _ => .pure [])
      (fun c hproper => ?_) ?_
    · obtain ⟨ts, ending, trail⟩ := c
      cases ts with
      | nil => exact .fail block_invites
      | cons t ts =>
        refine .step [] (hrest ⟨t :: ts, ending, trail⟩ hproper) rfl rfl ?_
        rintro us ns rest ⟨first, mid, hfirst, others, u, rfl, hothers, hu⟩
        exact ⟨u, .cons hfirst hothers, hu⟩
    · rintro t ts ns rest ht ⟨rfl, rfl⟩
      exact ⟨t, .nil, ht⟩

/-- What may follow the condition of an `if`. -/
def Branches (test : Node) (mid : List Token) (n : Node) (rest : List Token) : Prop :=
  ∀ ts, Condition .ifWord ts test mid → Stmt ts n rest

theorem writable_branches (test : Node) : Writable (Branches test) :=
  writable_stmt.map (f := fun yes => Node.cond test yes none) fun _ _ _ hend h _ hcondition =>
    .ifOnly hcondition h hend

theorem branches_viable {stmt : Parser Node} (h : Viable stmt Stmt) (hsound : Sound stmt Stmt)
    (test : Node) :
    Viable (do
        let yes ← stmt
        if ← accept .elseWord then return Node.cond test yes (some (← stmt))
        else return Node.cond test yes none)
      (Branches test) := by
  have helse : ∀ yes, Viable (do
        if ← accept .elseWord then return Node.cond test yes (some (← stmt))
        else return Node.cond test yes none)
      (fun ts n rest => n = .cond test yes none ∧ rest = ts ∧ ¬ Next .elseWord ts ∨
        ∃ t mid no, ts = t :: mid ∧ t.kind = .elseWord ∧ Stmt mid no rest ∧
          n = .cond test yes (some no)) := by
    intro yes
    refine Viable.accept (h.map (f := fun no => Node.cond test yes (some no))
      (S := fun ts n rest => ∃ no, Stmt ts no rest ∧ n = .cond test yes (some no))
      fun _ no _ h => ⟨no, h, rfl⟩) (fun c _ => .pure _) ?_
    rintro t ts n rest ht ⟨no, hno, rfl⟩
    exact .inr ⟨t, ts, no, rfl, ht, hno, rfl⟩
  refine (h.bind hsound shifts_stmt helse fun yes =>
    ⟨[], _, by simp [Next], fun us hus => .inl ⟨rfl, rfl, hus⟩⟩).mono ?_
  rintro mid n rest ⟨yes, mid', hyes, ⟨rfl, rfl, hend⟩ | ⟨t, mid'', no, rfl, ht, hno, rfl⟩⟩ ts hts
  · exact .ifOnly hts hyes hend
  · exact .ifElse hts hyes ht hno

theorem statement_invites : Invites Stmt [] Expectation.operand := by
  have hclosed := primary_invites.append (T := fun e ts b rest => Took .semicolon ts rest ∧ b = e)
    fun e => ⟨[.sample .semicolon], e, not_next_sample (by decide) _, fun us _ =>
      ⟨⟨_, rfl, rfl⟩, rfl⟩⟩
  refine hclosed.map (f := id) ?_
  rintro us e rest ⟨e, mid, h, ⟨t, ht, rfl⟩, rfl⟩
  exact .expr (.assign (assign_of_primary h)) ht

theorem header_viable {stmt : Parser Node} (h : Viable stmt Stmt) (bound : Nat) :
    Viable (do
        expect .leftParen
        let init ← clause bound .semicolon
        let test ← clause bound .semicolon
        let step ← clause bound .rightParen
        return Node.iter init test step (← stmt))
      (fun ts n rest => ∀ t : Token, t.kind = .forWord → Stmt (t :: ts) n rest) := by
  have hbody : ∀ init test step, Viable (do return Node.iter init test step (← stmt))
      (fun ts n rest => ∃ body, Stmt ts body rest ∧ n = .iter init test step body) :=
    fun init test step => h.map fun _ body _ h => ⟨body, h, rfl⟩
  have wbody : ∀ init test step, Writable (fun ts n rest =>
      ∃ body, Stmt ts body rest ∧ n = Node.iter init test step body) :=
    fun init test step => writable_stmt.map (f := fun body => Node.iter init test step body)
      fun _ body _ _ h => ⟨body, h, rfl⟩
  have hsemicolon := clause_viable bound (k := .semicolon) (by decide)
  have hstep := fun init test => (clause_viable bound (k := .rightParen) (by decide)).bind
    (clause_sound bound .rightParen) (shifts_clause .rightParen) (hbody init test) (wbody init test)
  have wstep := fun init test => (writable_clause (k := .rightParen) (by decide)).bind
    (wbody init test)
  have htest := fun init => hsemicolon.bind (clause_sound bound .semicolon)
    (shifts_clause .semicolon) (hstep init) (wstep init)
  have wtest := fun init => (writable_clause (k := .semicolon) (by decide)).bind (wstep init)
  have hinit := hsemicolon.bind (clause_sound bound .semicolon) (shifts_clause .semicolon)
    htest wtest
  have winit := (writable_clause (k := .semicolon) (by decide)).bind wtest
  refine Viable.expect (by decide) hinit winit ?_
  rintro u ts n rest hu
    ⟨init, ts₁, hinit, test, ts₂, htest, step, ts₃, hstep, body, hbody, rfl⟩ t ht
  exact .iter ht hu hinit htest hstep hbody

theorem statement_viable (bound : Nat) : Viable (statement bound) Stmt := by
  induction bound with
  | zero => exact fun c _ => .fail statement_invites
  | succ bound ih =>
    have hsound := statement_sound bound
    refine Viable.within _ fun c hproper => ?_
    obtain ⟨ts, ending, trail⟩ := c
    have hsimple : Viable (expressionThen (bound + 1) .semicolon) Stmt :=
      (expressionThen_viable (bound + 1) (by decide)).mono fun _ _ _ ⟨_, h, ht⟩ => .expr h ht
    cases ts with
    | nil => exact hsimple ⟨[], ending, trail⟩ hproper
    | cons t ts =>
      have hproper' : ∀ u ∈ ts, u.Proper := (List.forall_mem_cons.1 hproper).2
      obtain ⟨kind, content, place⟩ := t
      cases kind with
      | returnWord =>
        have hret : Viable (do return Node.ret (← expressionThen (bound + 1) .semicolon))
            (fun ts n rest => ∀ t : Token, t.kind = .returnWord → Stmt (t :: ts) n rest) :=
          (expressionThen_viable (bound + 1) (by decide)).map fun _ _ _ ⟨_, h, hu⟩ _ ht =>
            .ret ht h hu
        exact .step [⟨.returnWord, content, place⟩] (hret ⟨ts, ending, trail⟩ hproper') rfl rfl
          fun _ _ _ h => h _ rfl
      | ifWord =>
        refine .step [] (condition_viable (bound + 1) hproper (branches_viable ih hsound)
          writable_branches) rfl rfl ?_
        rintro us n rest ⟨test, mid, htest, h⟩
        exact h us htest
      | whileWord =>
        have hbody : ∀ test, Viable (do return Node.loop test (← statement bound))
            (fun ts n rest => ∃ body, Stmt ts body rest ∧ n = .loop test body) :=
          fun test => ih.map fun _ body _ h => ⟨body, h, rfl⟩
        have wbody : ∀ test, Writable (fun ts n rest =>
            ∃ body, Stmt ts body rest ∧ n = Node.loop test body) :=
          fun test => writable_stmt.map (f := fun body => Node.loop test body)
            fun _ body _ _ h => ⟨body, h, rfl⟩
        refine .step [] (condition_viable (bound + 1) hproper hbody wbody) rfl rfl ?_
        rintro us n rest ⟨test, mid, htest, body, hbody, rfl⟩
        exact .loop htest hbody
      | forWord =>
        refine .step [⟨.forWord, content, place⟩]
          (header_viable ih (bound + 1) ⟨ts, ending, trail⟩ hproper') rfl rfl ?_
        exact fun _ _ _ h => h _ rfl
      | leftBrace =>
        have hblock : Viable (do return Node.block (← blockRest (statement bound) bound))
            (fun ts n rest => ∀ t : Token, t.kind = .leftBrace → Stmt (t :: ts) n rest) :=
          (blockRest_viable ih hsound bound).map fun _ _ _ ⟨_, h, hu⟩ _ ht => .block ht h hu
        refine .step [] (.within .block (.step [⟨.leftBrace, content, place⟩]
          (hblock ⟨ts, ending, .block :: trail⟩ hproper') rfl rfl fun _ _ _ h => h _ rfl))
          rfl rfl fun _ _ _ h => h
      | _ => exact hsimple ⟨_ :: ts, ending, trail⟩ hproper

theorem statements_viable (bound count : Nat) : Viable (statements bound count) Stmts := by
  induction count with
  | zero => exact fun c _ => .pure []
  | succ count ih =>
    have hothers : ∀ first, Viable (do return first :: (← statements bound count))
        (fun ts ns rest => ∃ others, Stmts ts others rest ∧ ns = first :: others) :=
      fun first => ih.map fun _ others _ h => ⟨others, h, rfl⟩
    have hrest := (statement_viable bound).bind (statement_sound bound) shifts_stmt hothers
      fun first => ⟨[], _, by simp [Next], fun us _ => ⟨[], .nil, rfl⟩⟩
    intro c hproper
    obtain ⟨ts, ending, trail⟩ := c
    cases ts with
    | nil => exact .pure []
    | cons t ts =>
      refine .step [] (hrest ⟨t :: ts, ending, trail⟩ hproper) rfl rfl ?_
      rintro us ns rest ⟨first, mid, hfirst, others, hothers, rfl⟩
      exact .cons hfirst hothers

theorem program_viable (bound : Nat) : Viable (program bound) Stmts :=
  (statements_viable bound bound).within _

end Parser
end WordC
