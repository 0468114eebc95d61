import Mathlib
import WordC.Proofs.Grammar.Rejection
import WordC.Proofs.Grammar.Rules
/-!
The trail of a rejection.

Every rule leaves the trail as it was, since it is only changed around a rule that is read
within a production.  The productions on it lie one inside the other, up to the program, and
as many of them are blocks as there are braces open.  Both hold at every cursor from which a
rule is read and from which a rejection is made: `Cursor.At` says so of a cursor, and `Keeps`
says that a rule that starts there stays there.
-/

namespace WordC
namespace Parser

/-! ## The trail is left as it was -/

/-- The reader leaves the trail as it was, whether it succeeds or fails. -/
def Balanced {α : Type} (p : Parser α) : Prop :=
  ∀ c : Cursor,
    match p c with
    | .ok _ d => d.trail = c.trail
    | .error _ d => d.trail = c.trail

theorem Built.balanced {α : Type} {S : Cursor → Prop} {p : Parser α}
    (h : Built S p) (hS : ∀ c, S c) : Balanced p := by
  induction h with
  | pure a => exact fun _ => rfl
  | @bind _ _ p f _ _ hp hf =>
    intro c
    have hpc := hp c
    cases hrun : p c with
    | ok a d =>
      rw [hrun] at hpc
      rw [bind_of_ok hrun, ← show d.trail = c.trail from hpc]
      exact hf a d
    | error r d =>
      rw [hrun] at hpc
      rw [bind_of_error hrun]
      exact hpc
  | get _ hf => exact fun c => hf c (hS c) c
  | fail cause => exact fun _ => rfl
  | failAt cause _ => exact fun _ => rfl
  | @within _ p production _ hp =>
    intro c
    have hinner := hp { c with trail := production :: c.trail }
    rw [Parser.within]
    cases hrun : p { c with trail := production :: c.trail } with
    | ok a d =>
      rw [hrun] at hinner
      exact congrArg List.tail hinner
    | error r d =>
      rw [hrun] at hinner
      exact congrArg List.tail hinner
  | advance => exact fun _ => rfl

theorem Rule.balanced {α : Type} {p : Parser α} (h : Rule p) : Balanced p :=
  (h.built : Built (fun _ => True) p).balanced fun _ => trivial

end Parser

/-! ## Productions inside productions -/

namespace Production

/-- Which production is read directly inside which. -/
def edges : List (Production × Production) :=
  [(.program, .stmt), (.stmt, .stmt), (.stmt, .block), (.stmt, .expr), (.block, .stmt),
    (.expr, .assign), (.assign, .assign), (.assign, .equality), (.equality, .relational),
    (.relational, .add), (.add, .mul), (.mul, .unary), (.unary, .primary), (.primary, .expr)]

/-- The productions that reject a token themselves. -/
def stops : List Production := [.stmt, .block, .assign, .primary]

/-- The productions lie one inside the other, up to the program.  The innermost one comes
first. -/
inductive Nested : List Production → Prop where
  | program : Nested [.program]
  | cons {outer inner : Production} {trail : List Production} :
      (outer, inner) ∈ edges → Nested (outer :: trail) → Nested (inner :: outer :: trail)

theorem Nested.head_reverse {trail : List Production} (h : Nested trail) :
    trail.reverse.head? = some .program := by
  rw [List.head?_reverse]
  induction h with
  | program => rfl
  | cons _ _ ih => rwa [List.getLast?_cons_cons]

theorem Nested.isChain_reverse {trail : List Production} (h : Nested trail) :
    trail.reverse.IsChain fun outer inner => (outer, inner) ∈ edges := by
  rw [List.isChain_reverse]
  induction h with
  | program => exact .singleton _
  | cons hedge _ ih => exact List.isChain_cons_cons.2 ⟨hedge, ih⟩

end Production

open Production

/-! ## Open braces -/

namespace Token

def braces : List Kind := [.leftBrace, .rightBrace]

/-- How many of the tokens have the kind. -/
def countKind (k : Kind) (ts : List Token) : Nat := ts.countP (·.kind = k)

theorem countKind_concat (k : Kind) (ts : List Token) (t : Token) :
    countKind k (ts ++ [t]) = countKind k ts + if t.kind = k then 1 else 0 := by
  simp [countKind, List.countP_append, List.countP_singleton]

end Token

/-- There is a block on the trail for every brace that has been opened and not closed. -/
def Cursor.Deep (tokens : Tokens) (c : Cursor) : Prop :=
  ∃ before, tokens.body = before ++ c.rest ∧ c.ending = tokens.ending ∧
    c.trail.count .block + Token.countKind .rightBrace before = Token.countKind .leftBrace before

namespace Cursor.Deep

variable {tokens : Tokens} {t : Token} {ts : List Token} {ending : Place}
  {trail : List Production}

theorem take (h : Deep tokens ⟨t :: ts, ending, trail⟩) (ht : t.kind ∉ Token.braces) :
    Deep tokens ⟨ts, ending, trail⟩ := by
  obtain ⟨before, hbody, hending, hcount⟩ := h
  rw [Token.braces, List.mem_pair, not_or] at ht
  refine ⟨before ++ [t], by simp [hbody], hending, ?_⟩
  rwa [Token.countKind_concat, Token.countKind_concat, if_neg ht.1, if_neg ht.2]

theorem enter (h : Deep tokens ⟨t :: ts, ending, trail⟩) (ht : t.kind = .leftBrace) :
    Deep tokens ⟨ts, ending, .block :: trail⟩ := by
  obtain ⟨before, hbody, hending, hcount⟩ := h
  refine ⟨before ++ [t], by simp [hbody], hending, ?_⟩
  rw [Token.countKind_concat, Token.countKind_concat, ht, if_pos rfl, if_neg (by decide),
    List.count_cons_self]
  dsimp only at hcount
  omega

theorem leave (h : Deep tokens ⟨t :: ts, ending, .block :: trail⟩) (ht : t.kind = .rightBrace) :
    Deep tokens ⟨ts, ending, trail⟩ := by
  obtain ⟨before, hbody, hending, hcount⟩ := h
  refine ⟨before ++ [t], by simp [hbody], hending, ?_⟩
  rw [List.count_cons_self] at hcount
  rw [Token.countKind_concat, Token.countKind_concat, ht, if_pos rfl, if_neg (by decide)]
  dsimp only
  omega

theorem push (h : Deep tokens ⟨ts, ending, trail⟩) {p : Production} (hp : p ≠ .block) :
    Deep tokens ⟨ts, ending, p :: trail⟩ := by
  obtain ⟨before, hbody, hending, hcount⟩ := h
  exact ⟨before, hbody, hending, by rwa [List.count_cons_of_ne hp]⟩

theorem pop {p : Production} (h : Deep tokens ⟨ts, ending, p :: trail⟩) (hp : p ≠ .block) :
    Deep tokens ⟨ts, ending, trail⟩ := by
  obtain ⟨before, hbody, hending, hcount⟩ := h
  exact ⟨before, hbody, hending, by rwa [List.count_cons_of_ne hp] at hcount⟩

end Cursor.Deep

/-! ## Cursors from which a rule is read -/

/-- What holds where a rule is read inside the production `top`, with less than `n` tokens
left. -/
structure Cursor.At (tokens : Tokens) (top : Production) (n : Nat) (c : Cursor) : Prop where
  deep : c.Deep tokens
  nested : Nested c.trail
  top : c.trail.head? = some top
  short : c.rest.length < n

/-- The rejection was made at a cursor of this kind, in a production that rejects tokens. -/
def Rejection.Describes (tokens : Tokens) (r : Rejection) : Prop :=
  ∃ spot : Cursor, spot.Deep tokens ∧ Nested spot.trail ∧
    (∃ p ∈ stops, spot.trail.head? = some p) ∧ r.place = spot.place ∧ r.near = spot.near ∧
    r.trail = spot.trail.reverse

namespace Cursor.At

variable {tokens : Tokens} {top : Production} {n m : Nat}

theorem mono {c : Cursor} (h : c.At tokens top n) (hle : n ≤ m) : c.At tokens top m :=
  ⟨h.deep, h.nested, h.top, Nat.lt_of_lt_of_le h.short hle⟩

/-- A token that is no brace is stepped over. -/
theorem take {t : Token} {ts : List Token} {ending : Place} {trail : List Production}
    (h : At tokens top n ⟨t :: ts, ending, trail⟩) {k : Token.Kind} (hk : k ∉ Token.braces)
    (ht : t.kind = k) (hle : n ≤ m + 1) : At tokens top m ⟨ts, ending, trail⟩ := by
  have hshort : ts.length + 1 < n := h.short
  exact ⟨h.deep.take (ht ▸ hk), h.nested, h.top, by dsimp only; omega⟩

theorem exists_trail {c : Cursor} (h : c.At tokens top n) : ∃ outer, c.trail = top :: outer := by
  have htop := h.top
  cases htrail : c.trail with
  | nil =>
    rw [htrail] at htop
    cases htop
  | cons p outer =>
    rw [htrail] at htop
    exact ⟨outer, by rw [Option.some.inj htop]⟩

theorem push {c : Cursor} (h : c.At tokens top n) {p : Production} (hedge : (top, p) ∈ edges)
    (hp : p ≠ .block) : At tokens p n { c with trail := p :: c.trail } := by
  obtain ⟨outer, htrail⟩ := h.exists_trail
  refine ⟨h.deep.push hp, ?_, rfl, h.short⟩
  have hnested := h.nested
  dsimp only
  rw [htrail] at hnested ⊢
  exact .cons hedge hnested

/-- A brace is opened, and a block with it. -/
theorem enter {t : Token} {ts : List Token} {ending : Place} {trail : List Production}
    (h : At tokens .stmt (n + 1) ⟨t :: ts, ending, trail⟩) (ht : t.kind = .leftBrace) :
    At tokens .block n ⟨ts, ending, .block :: trail⟩ := by
  obtain ⟨outer, rfl⟩ : ∃ outer, trail = .stmt :: outer := h.exists_trail
  exact ⟨h.deep.enter ht, .cons (by decide) h.nested, rfl, Nat.lt_of_succ_lt_succ h.short⟩

theorem describes {spot : Cursor} (h : spot.At tokens top n) (htop : top ∈ stops)
    (cause : Rejection.Cause) :
    Rejection.Describes tokens ⟨spot.place, spot.near, cause, spot.trail.reverse⟩ :=
  ⟨spot, h.deep, h.nested, ⟨top, htop, h.top⟩, rfl, rfl, rfl⟩

end Cursor.At

namespace Parser

/-- A reader that succeeds leaves the trail and a cursor as asked for, and one that fails is
described by its trail. -/
def Ends {α : Type} (tokens : Tokens) (trail : List Production) (post : Cursor → Prop) :
    EStateM.Result Rejection Cursor α → Prop
  | .ok _ d => d.trail = trail ∧ post d
  | .error r _ => r.Describes tokens

/-- Started inside `top`, the reader stays there. -/
def Keeps {α : Type} (tokens : Tokens) (top : Production) (n : Nat) (p : Parser α) : Prop :=
  ∀ c : Cursor, c.At tokens top n → Ends tokens c.trail (Cursor.At tokens top n) (p c)

section

variable {α β : Type} {tokens : Tokens} {trail : List Production} {mid post : Cursor → Prop}
  {top : Production} {n m : Nat} {c : Cursor}

theorem Ends.imp {res : EStateM.Result Rejection Cursor α} (h : Ends tokens trail mid res)
    (himp : ∀ d, d.trail = trail → mid d → post d) : Ends tokens trail post res := by
  cases res with
  | ok a d => exact ⟨h.1, himp d h.1 h.2⟩
  | error r d => exact h

theorem Ends.mono {res : EStateM.Result Rejection Cursor α}
    (h : Ends tokens trail (Cursor.At tokens top n) res) (hle : n ≤ m) :
    Ends tokens trail (Cursor.At tokens top m) res :=
  h.imp fun _ _ hd => hd.mono hle

theorem Ends.bind {p : Parser α} {f : α → Parser β} (h : Ends tokens trail mid (p c))
    (hf : ∀ a d, d.trail = trail → mid d → Ends tokens trail post (f a d)) :
    Ends tokens trail post ((p >>= f) c) := by
  cases hrun : p c with
  | ok a d =>
    rw [hrun] at h
    rw [bind_of_ok hrun]
    exact hf a d h.1 h.2
  | error r d =>
    rw [hrun] at h
    rw [bind_of_error hrun]
    exact h

theorem Ends.get {f : Cursor → Parser β} (h : Ends tokens trail post (f c c)) :
    Ends tokens trail post ((EStateM.get >>= f) c) := h

/-- What follows stays inside the same production. -/
theorem Ends.andThen {p : Parser α} {f : α → Parser β}
    (h : Ends tokens trail (Cursor.At tokens top n) (p c)) (hf : ∀ a, Keeps tokens top n (f a)) :
    Ends tokens trail (Cursor.At tokens top n) ((p >>= f) c) :=
  h.bind fun a d hd hat => hd ▸ hf a d hat

/-- A failure at an earlier cursor with the same trail. -/
theorem Ends.failAt {spot : Cursor} (h : spot.At tokens top n) (htop : top ∈ stops)
    (htrail : c.trail = spot.trail) (cause : Rejection.Cause) :
    Ends tokens trail post (failAt spot cause c : EStateM.Result Rejection Cursor α) := by
  have hr := h.describes htop cause
  rwa [← htrail] at hr

theorem Ends.within {p : Parser α} {production : Production}
    (h : Ends tokens (production :: c.trail) mid (p { c with trail := production :: c.trail }))
    (hpost : ∀ d, d.trail = production :: c.trail → mid d → post { d with trail := c.trail }) :
    Ends tokens c.trail post (within production p c) := by
  rw [Parser.within]
  cases hrun : p { c with trail := production :: c.trail } with
  | ok a d =>
    rw [hrun] at h
    have htail : d.trail.tail = c.trail := by rw [h.1, List.tail_cons]
    have hd := hpost d h.1 h.2
    exact ⟨htail, by rwa [htail]⟩
  | error r d =>
    rw [hrun] at h
    exact h

end

namespace Keeps

variable {α β : Type} {tokens : Tokens} {top : Production} {n : Nat}

theorem pure (a : α) : Keeps tokens top n (pure a) := fun _ hc => ⟨rfl, hc⟩

theorem bind {p : Parser α} {f : α → Parser β} (hp : Keeps tokens top n p)
    (hf : ∀ a, Keeps tokens top n (f a)) : Keeps tokens top n (p >>= f) :=
  fun c hc => (hp c hc).andThen hf

theorem fail (htop : top ∈ stops) (cause : Rejection.Cause) :
    Keeps tokens top n (fail cause : Parser α) :=
  fun _ hc => hc.describes htop cause

theorem within {p : Parser α} {production : Production} (hedge : (top, production) ∈ edges)
    (hblock : production ≠ .block) (h : Keeps tokens production n p) :
    Keeps tokens top n (within production p) := by
  intro c hc
  refine (h _ (hc.push hedge hblock)).within fun d hd hat => ?_
  have hdeep := hat.deep
  rw [show d = ⟨d.rest, d.ending, production :: c.trail⟩ by rw [← hd]] at hdeep
  exact ⟨hdeep.pop hblock, hc.nested, hc.top, hat.short⟩

theorem accept {k : Token.Kind} (hk : k ∉ Token.braces) : Keeps tokens top n (accept k) := by
  intro c hc
  obtain ⟨ts, ending, trail⟩ := c
  by_cases hnext : Grammar.Next k ts
  · obtain ⟨t, ht, hts⟩ := took_of_next hnext
    rw [hts] at hc ⊢
    rw [Reads.accept ht ending trail]
    exact ⟨rfl, hc.take hk ht (Nat.le_succ n)⟩
  · rw [Reads.pass hnext ending trail]
    exact ⟨rfl, hc⟩

theorem expect {k : Token.Kind} (hk : k ∉ Token.braces) (htop : top ∈ stops) :
    Keeps tokens top n (expect k) := by
  refine .bind (accept hk) fun b => ?_
  cases b with
  | false => exact .fail htop _
  | true => exact .pure ()

end Keeps

/-! ## Expressions -/

section

variable {tokens : Tokens} {n : Nat}

theorem primary_keeps {expr : Parser Node} (hexpr : Keeps tokens .primary n expr) :
    Keeps tokens .unary (n + 1) (primary expr) := by
  refine .within (by decide) (by decide) fun c hc => ?_
  obtain ⟨ts, ending, trail⟩ := c
  cases ts with
  | nil => exact Keeps.fail (by decide) (.expected Expectation.operand) _ hc
  | cons t ts =>
    obtain ⟨kind, content, place⟩ := t
    cases kind with
    | number =>
      refine Ends.get ?_
      dsimp only
      cases Text.readDecimal content with
      | error e => exact Keeps.fail (by decide) .literalOutOfRange _ hc
      | ok value => exact ⟨rfl, hc.take (k := .number) (by decide) rfl (Nat.le_succ _)⟩
    | name => exact ⟨rfl, hc.take (k := .name) (by decide) rfl (Nat.le_succ _)⟩
    | leftParen =>
      have hinner : Keeps tokens .primary n (do
          let inner ← expr
          expect .rightParen
          return inner) :=
        .bind hexpr fun inner => .bind (.expect (by decide) (by decide)) fun _ => .pure inner
      have htaken := hc.take (k := .leftParen) (by decide) rfl (Nat.le_refl _)
      exact (hinner ⟨ts, ending, trail⟩ htaken).mono (Nat.le_succ n)
    | _ => exact Keeps.fail (by decide) (.expected Expectation.operand) _ hc

theorem unary_keeps {expr : Parser Node} (hexpr : Keeps tokens .primary n expr) :
    Keeps tokens .mul (n + 1) (unary expr) := by
  have hprimary := primary_keeps hexpr
  refine .within (by decide) (by decide) (.bind (.accept (by decide)) fun plus => ?_)
  cases plus with
  | true => exact hprimary
  | false =>
    refine .bind (.accept (by decide)) fun minus => ?_
    cases minus with
    | true => exact .bind hprimary fun _ => .pure _
    | false => exact hprimary

theorem not_brace_of_operator {level : Level} {k : Token.Kind} {op : Operator}
    (h : level.operator? k = some op) : k ∉ Token.braces := by
  cases level with
  | _ => cases k with
    | leftBrace | rightBrace => cases h
    | _ => decide

theorem chainRest_keeps {level : Level} {next : Parser Node}
    (hnext : Keeps tokens level.production n next) (bound : Nat) (left : Node) :
    Keeps tokens level.production n (chainRest level next bound left) := by
  induction bound generalizing left with
  | zero => exact .pure left
  | succ bound ih =>
    intro c hc
    cases hop : c.kind?.bind level.operator? with
    | none =>
      rw [chainRest_stop hop]
      exact ⟨rfl, hc⟩
    | some op =>
      obtain ⟨k, hk, hop⟩ := Option.bind_eq_some_iff.1 hop
      obtain ⟨ts, ending, trail⟩ := c
      obtain ⟨t, rfl, hts⟩ := took_of_next hk
      dsimp only at hts
      rw [hts] at hc ⊢
      rw [chainRest_step hop]
      have htaken := hc.take (m := n) (not_brace_of_operator hop) rfl (Nat.le_succ n)
      exact (hnext _ htaken).andThen fun right => ih _

theorem chain_keeps (level : Level) {top : Production} (hedge : (top, level.production) ∈ edges)
    {next : Parser Node} (hnext : Keeps tokens level.production n next) (bound : Nat) :
    Keeps tokens top n (chain level bound next) := by
  refine .within hedge ?_ (.bind hnext fun first => chainRest_keeps hnext bound first)
  cases level with
  | _ => decide

theorem operation_keeps {expr : Parser Node} (hexpr : Keeps tokens .primary n expr) (bound : Nat) :
    Keeps tokens .assign (n + 1) (operation bound expr) :=
  chain_keeps .equality (by decide) (chain_keeps .relational (by decide) (chain_keeps .add
    (by decide) (chain_keeps .mul (by decide) (unary_keeps hexpr) bound) bound) bound) bound

/-- The bound is never used up, since an expression in parentheses and the right side of an
assignment come after a token.  A target that is no name is reported where it starts, with
the trail that was there. -/
theorem assign_keeps {bound : Nat} (hbound : n ≤ bound) {top : Production}
    (hedge : (top, .assign) ∈ edges) : Keeps tokens top n (assign bound) := by
  induction bound generalizing n top with
  | zero =>
    intro c hc
    have hshort := hc.short
    omega
  | succ bound ih =>
    cases n with
    | zero => exact fun c hc => absurd hc.short (Nat.not_lt_zero _)
    | succ n =>
      have hle : n ≤ bound := Nat.le_of_succ_le_succ hbound
      have hexpr : Keeps tokens .primary n (within .expr (assign bound)) :=
        .within (by decide) (by decide) (ih hle (by decide))
      refine .within hedge (by decide) fun c hc => ?_
      refine Ends.bind (f := assignRest bound c) (operation_keeps hexpr bound c hc)
        fun left d hd hat => ?_
      rw [assignRest_apply]
      by_cases hk : d.kind? = some .assign
      · obtain ⟨ts, ending, trail⟩ := d
        obtain ⟨t, ht, hts⟩ := took_of_next hk
        dsimp only at hts
        rw [if_pos hk]
        cases left with
        | ident name =>
          rw [hts] at hat ⊢
          have htaken := hat.take (m := n) (by decide) ht (Nat.le_refl _)
          have hright := (ih hle (by decide) _ htaken).andThen
            (f := fun e => pure (Node.binary .assign (.ident name) e)) fun _ => .pure _
          rw [← hd]
          exact hright.mono (Nat.le_succ n)
        | _ => exact Ends.failAt hc (by decide) hd _
      · rw [if_neg hk]
        exact ⟨hd, hat⟩

theorem expressionThen_keeps {bound : Nat} (hbound : n ≤ bound) {terminator : Token.Kind}
    (hk : terminator ∉ Token.braces) :
    Keeps tokens .stmt n (expressionThen bound terminator) :=
  .bind (.within (by decide) (by decide) (assign_keeps hbound (by decide))) fun _ =>
    .bind (.expect hk (by decide)) fun _ => .pure _

/-! ## Statements -/

theorem clause_keeps {bound : Nat} (hbound : n ≤ bound) {terminator : Token.Kind}
    (hk : terminator ∉ Token.braces) : Keeps tokens .stmt n (clause bound terminator) := by
  refine .bind (.accept hk) fun missing => ?_
  cases missing with
  | true => exact .pure none
  | false => exact .bind (expressionThen_keeps hbound hk) fun _ => .pure _

/-- The keyword is there. -/
theorem condition_ends {bound : Nat} (hbound : n ≤ bound) {t : Token} {ts : List Token}
    {ending : Place} {trail : List Production} (hc : Cursor.At tokens .stmt n ⟨ts, ending, trail⟩) :
    Ends tokens trail (Cursor.At tokens .stmt n) (condition bound ⟨t :: ts, ending, trail⟩) := by
  have hrest : Keeps tokens .stmt n (do expect .leftParen; expressionThen bound .rightParen) :=
    .bind (.expect (by decide) (by decide)) fun _ => expressionThen_keeps hbound (by decide)
  exact hrest ⟨ts, ending, trail⟩ hc

/-- What has been read of a block leaves one brace less open than there are blocks on the
trail. -/
def Shut (tokens : Tokens) (n : Nat) (d : Cursor) : Prop :=
  d.rest.length < n ∧ Cursor.Deep tokens { d with trail := d.trail.tail }

theorem blockRest_ends {stmt : Parser Node} (hstmt : Keeps tokens .block n stmt) (bound : Nat)
    {c : Cursor} (hc : c.At tokens .block n) :
    Ends tokens c.trail (Shut tokens n) (blockRest stmt bound c) := by
  induction bound generalizing c with
  | zero => exact hc.describes (by decide) _
  | succ bound ih =>
    obtain ⟨ts, ending, trail⟩ := c
    by_cases hnext : Grammar.Next .rightBrace ts
    · obtain ⟨t, ht, hts⟩ := took_of_next hnext
      obtain ⟨outer, rfl⟩ : ∃ outer, trail = .block :: outer := hc.exists_trail
      rw [hts] at hc ⊢
      have hrun : blockRest stmt (bound + 1) ⟨t :: ts.tail, ending, .block :: outer⟩ =
          .ok [] ⟨ts.tail, ending, .block :: outer⟩ :=
        bind_of_ok (Reads.accept ht ending _)
      rw [hrun]
      exact ⟨rfl, Nat.lt_of_succ_lt hc.short, hc.deep.leave ht⟩
    · have haccept := Reads.pass hnext ending trail
      cases ts with
      | nil =>
        rw [blockRest, bind_of_ok haccept]
        exact hc.describes (by decide) (.expected [.kind .rightBrace, .statement])
      | cons t ts =>
        rw [blockRest, bind_of_ok haccept]
        refine (hstmt _ hc).bind fun first d hd hat => ?_
        rw [← hd]
        exact (ih hat).bind fun others d' hd' hshut => ⟨hd', hshut⟩

theorem statement_keeps {bound : Nat} (hbound : n ≤ bound) {top : Production}
    (hedge : (top, .stmt) ∈ edges) : Keeps tokens top n (statement bound) := by
  -- A statement inside another one comes after a keyword or a brace, with fewer tokens left.
  induction bound generalizing n top with
  | zero =>
    intro c hc
    have hshort := hc.short
    omega
  | succ bound ih =>
    cases n with
    | zero => exact fun c hc => absurd hc.short (Nat.not_lt_zero _)
    | succ n =>
      have hle : n ≤ bound := Nat.le_of_succ_le_succ hbound
      have hle' : n ≤ bound + 1 := Nat.le_succ_of_le hle
      have hstmt : Keeps tokens .stmt n (statement bound) := ih hle (by decide)
      have hsimple : Keeps tokens .stmt (n + 1) (expressionThen (bound + 1) .semicolon) :=
        expressionThen_keeps hbound (by decide)
      refine .within hedge (by decide) fun c hc => ?_
      obtain ⟨ts, ending, trail⟩ := c
      cases ts with
      | nil => exact hsimple _ hc
      | cons t ts =>
        obtain ⟨kind, content, place⟩ := t
        cases kind with
        | returnWord =>
          have htaken := hc.take (k := .returnWord) (by decide) rfl (Nat.le_succ _)
          exact (hsimple _ htaken).andThen fun _ => .pure _
        | ifWord =>
          have htaken := hc.take (k := .ifWord) (by decide) rfl (Nat.le_refl _)
          refine Ends.mono ((condition_ends hle' htaken).andThen fun test => ?_) (Nat.le_succ n)
          refine .bind hstmt fun yes => .bind (.accept (by decide)) fun more => ?_
          cases more with
          | true => exact .bind hstmt fun _ => .pure _
          | false => exact .pure _
        | whileWord =>
          have htaken := hc.take (k := .whileWord) (by decide) rfl (Nat.le_refl _)
          refine Ends.mono ((condition_ends hle' htaken).andThen fun test => ?_) (Nat.le_succ n)
          exact .bind hstmt fun _ => .pure _
        | forWord =>
          have htaken := hc.take (k := .forWord) (by decide) rfl (Nat.le_refl _)
          have hheader : Keeps tokens .stmt n (do
              expect .leftParen
              let init ← clause (bound + 1) .semicolon
              let test ← clause (bound + 1) .semicolon
              let step ← clause (bound + 1) .rightParen
              return Node.iter init test step (← statement bound)) :=
            .bind (.expect (by decide) (by decide)) fun _ =>
              .bind (clause_keeps hle' (by decide)) fun _ =>
              .bind (clause_keeps hle' (by decide)) fun _ =>
              .bind (clause_keeps hle' (by decide)) fun _ => .bind hstmt fun _ => .pure _
          exact (hheader _ htaken).mono (Nat.le_succ n)
        | leftBrace =>
          -- The block is on the trail before its brace is taken, and still there when the
          -- brace that ends it has been: only in between are there as many of both.
          have hopen := hc.enter rfl
          have hrest := blockRest_ends (ih hle (by decide)) bound hopen
          have hbody : Ends tokens (.block :: trail) (Shut tokens n)
              ((do advance; return .block (← blockRest (statement bound) bound) : Parser Node)
                ⟨⟨.leftBrace, content, place⟩ :: ts, ending, .block :: trail⟩) :=
            hrest.bind fun _ d hd hshut => ⟨hd, hshut⟩
          refine hbody.within fun d hd hshut => ?_
          have hdeep := hshut.2
          rw [hd] at hdeep
          exact ⟨hdeep, hc.nested, hc.top, Nat.lt_succ_of_lt hshut.1⟩
        | _ => exact hsimple _ hc

theorem statements_keeps {bound : Nat} (hbound : n ≤ bound) (count : Nat) :
    Keeps tokens .program n (statements bound count) := by
  induction count with
  | zero => exact .pure []
  | succ count ih =>
    intro c hc
    obtain ⟨ts, ending, trail⟩ := c
    cases ts with
    | nil => exact ⟨rfl, hc⟩
    | cons t ts =>
      exact (statement_keeps hbound (by decide) _ hc).andThen fun _ => .bind ih fun _ => .pure _

end

end Parser

/-! ## Rejections -/

theorem describes_of_ofTokens {tokens : Tokens} {r : Rejection}
    (h : Program.ofTokens tokens = .error r) : r.Describes tokens := by
  obtain ⟨d, hread⟩ := exists_of_ofTokens_error h
  have hstart : Cursor.At tokens .program tokens.bound ⟨tokens.body, tokens.ending, [.program]⟩ :=
    ⟨⟨[], rfl, rfl, rfl⟩, .program, rfl, Nat.lt_succ_self _⟩
  have hends : Parser.Ends tokens [] (fun _ => True)
      (Parser.program tokens.bound (.ofTokens tokens)) :=
    Parser.Ends.within (Parser.statements_keeps (Nat.le_refl _) tokens.bound _ hstart)
      fun _ _ _ => trivial
  rw [show Parser.program tokens.bound (.ofTokens tokens) = .error r d from hread] at hends
  exact hends

/-- The rules in which a rejection is made.  Every function that reads a part of a program
leaves the trail as it was.  If tokens are rejected, the trail starts with the program, goes
from each production to one that is read directly inside it, and ends with one that rejects
tokens.  It holds a block for every brace that is opened and not closed in front of the token
at which the rejection stands; in a source, this is the only token at its place.  Of a list with
several ends, the tokens in front of the first are read. -/
theorem trail_of_rejection :
    (∀ (α : Type) (p : Parser α), Parser.Rule p → Parser.Balanced p) ∧
    (∀ (entries : List Entry) (place : Place), .ending place ∈ entries →
      ∃ tokens : Tokens, tokens.entries <+: entries ∧
        ∀ bottom depth, 12 * tokens.entries.length ≤ depth →
          (∃ p w, descend entries bottom depth _ .program ⟨0, []⟩ = .ok p w ∧
            w.pos + 1 = tokens.entries.length ∧ Program.ofTokens tokens = .ok p) ∨
          ∃ r w, descend entries bottom depth _ .program ⟨0, []⟩ = .error (.rejected r) w ∧
            Program.ofTokens tokens = .error r) ∧
    ∀ (tokens : Tokens) (r : Rejection), Program.ofTokens tokens = .error r →
      r.trail.head? = some .program ∧
      (r.trail.IsChain fun outer inner => (outer, inner) ∈ edges) ∧
      (∃ last ∈ stops, r.trail.getLast? = some last) ∧
      ∃ k ≤ tokens.body.length, r.place = tokens.placeAt k ∧
        r.near = Cursor.near ⟨tokens.body.drop k, tokens.ending, []⟩ ∧
        (r.trail.count .block : Int) =
          Token.countKind .leftBrace (tokens.body.take k) -
            Token.countKind .rightBrace (tokens.body.take k) ∧
        ∀ source, Token.scan source = .ok tokens →
          ∀ j ≤ tokens.body.length, tokens.placeAt j = r.place → j = k := by
  refine ⟨fun α p hp => hp.balanced, fun entries place => program_of_first_end,
    fun tokens r h => ?_⟩
  obtain ⟨⟨rest, ending, trail⟩, ⟨before, hbody, rfl, hcount⟩, hnested, ⟨last, hlast, htop⟩,
    hplace, hnear, htrail⟩ := describes_of_ofTokens h
  dsimp only at hbody hcount hnested htop htrail
  have hlength : before.length ≤ tokens.body.length := by
    rw [hbody, List.length_append]
    exact Nat.le_add_right _ _
  have hdrop : tokens.body.drop before.length = rest := by rw [hbody, List.drop_left]
  have htake : tokens.body.take before.length = before := by rw [hbody, List.take_left]
  have hplace' : r.place = tokens.placeAt before.length := by
    rw [hplace, ← tokens.place_drop before.length trail, hdrop]
  rw [htrail]
  refine ⟨hnested.head_reverse, hnested.isChain_reverse,
    ⟨last, hlast, by rw [List.getLast?_reverse, htop]⟩, before.length, hlength, hplace', ?_, ?_,
    fun source hscan j hj hjplace =>
      Token.placeAt_injective hscan hj hlength (hjplace.trans hplace')⟩
  · rw [hnear, hdrop]
    rfl
  · rw [htake, List.count_reverse]
    omega

/-- A sum without its second operand, in a block that follows another one. -/
def unfinishedSum : Tokens where
  body := [⟨.leftBrace, utf8 "\x7b", ⟨0, 1, 1⟩⟩, ⟨.leftBrace, utf8 "\x7b", ⟨1, 1, 2⟩⟩,
    ⟨.rightBrace, utf8 "\x7d", ⟨2, 1, 3⟩⟩, ⟨.number, utf8 "1", ⟨3, 1, 4⟩⟩,
    ⟨.plus, utf8 "+", ⟨4, 1, 5⟩⟩, ⟨.rightBrace, utf8 "\x7d", ⟨5, 1, 6⟩⟩]
  ending := ⟨6, 1, 7⟩

def unfinishedSumRejection : Rejection where
  place := ⟨5, 1, 6⟩
  near := utf8 "\x7d"
  cause := .expected Expectation.operand
  trail := [.program, .stmt, .block, .stmt, .expr, .assign, .equality, .relational, .add, .mul,
    .unary, .primary]

theorem unfinishedSum_trail :
    Token.scan (utf8 "\x7b\x7b\x7d1+\x7d") = .ok unfinishedSum ∧
      Program.ofTokens unfinishedSum = .error unfinishedSumRejection ∧
      Parser.Balanced (Parser.statement 7) ∧
      (unfinishedSumRejection.trail.IsChain fun outer inner => (outer, inner) ∈ edges) ∧
      (unfinishedSumRejection.trail.count .block : Int) =
        Token.countKind .leftBrace (unfinishedSum.body.take 5) -
          Token.countKind .rightBrace (unfinishedSum.body.take 5) := by
  have hscan : Token.scan (utf8 "\x7b\x7b\x7d1+\x7d") = .ok unfinishedSum := by cbv
  have hread : Program.ofTokens unfinishedSum = .error unfinishedSumRejection := by cbv
  obtain ⟨-, hchain, -, k, -, -, -, hcount, hplace⟩ := trail_of_rejection.2.2 _ _ hread
  obtain rfl : 5 = k := hplace _ hscan 5 (by decide) rfl
  exact ⟨hscan, hread, trail_of_rejection.1 _ _ (.statement 7), hchain, hcount⟩

end WordC
