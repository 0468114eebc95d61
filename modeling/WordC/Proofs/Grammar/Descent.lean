import WordC.Proofs.Grammar.Bound
/-!
The descent through the rules, without bounds.

Here the rules are functions that call each other over a list that is indexed, of tokens and
their end.  Nothing bounds their calls, a loop is a function that calls itself, and an index
outside the list stops everything.  What a call is left to do is given
by `Call.body` with the calls that it makes left open, and `descend` fills them in down to
a depth, with anything at all below.  If the depth covers what a call can come to, the call
does what the rule does that is read with a bound, so that nothing below was ever called.
No call goes past the end, so the list may go on behind it.
-/

namespace WordC

/-! ## Tokens with their end -/

/-- What stands at an index of the tokens. -/
inductive Entry where
  | token (t : Token)
  | ending (place : Place)
deriving Repr, DecidableEq

namespace Entry

/-- The kind of a token.  The end has none. -/
def kind? : Entry → Option Token.Kind
  | token t => some t.kind
  | ending _ => none

def place : Entry → Place
  | token t => t.place
  | ending place => place

def near : Entry → Text
  | token t => t.content
  | ending _ => Token.endText

end Entry

/-- The tokens with the end behind them. -/
def Tokens.entries (tokens : Tokens) : List Entry :=
  tokens.body.map .token ++ [.ending tokens.ending]

/-- The entry at a cursor. -/
def Cursor.entry (c : Cursor) : Entry :=
  match c.rest with
  | t :: _ => .token t
  | [] => .ending c.ending

namespace Cursor

theorem kind?_entry (c : Cursor) : c.entry.kind? = c.kind? := by
  obtain ⟨ts, ending, trail⟩ := c
  cases ts <;> rfl

theorem place_entry (c : Cursor) : c.entry.place = c.place := by
  obtain ⟨ts, ending, trail⟩ := c
  cases ts <;> rfl

theorem near_entry (c : Cursor) : c.entry.near = c.near := by
  obtain ⟨ts, ending, trail⟩ := c
  cases ts <;> rfl

theorem isEmpty_rest_iff {c : Cursor} : c.rest.isEmpty = true ↔ c.kind? = none := by
  simp [kind?]

theorem traced_advance {c : Cursor} {k : Token.Kind} (h : c.kind? = some k) :
    Parser.Traced 1 Parser.advance c.rest := by
  obtain ⟨t, -, hrest⟩ := Parser.took_of_next h
  rw [hrest]
  exact Parser.Traced.advance t _

end Cursor

/-! ## Walks -/

/-- An index into the entries, and the rules being read, innermost first. -/
structure Walk where
  pos : Nat
  trail : List Production
deriving Repr, DecidableEq

/-- Why a walk stops. -/
inductive Walk.Stop where
  | rejected (r : Rejection)
  | outside (index : Nat)
deriving Repr

abbrev Walker := EStateM Walk.Stop Walk

namespace Walker

section Steps

variable {α : Type} (entries : List Entry)

/-- The entry at the index.  There is none outside the list. -/
def look : Walker Entry := fun w =>
  match entries[w.pos]? with
  | some e => .ok e w
  | none => .error (.outside w.pos) w

/-- Moves on, but not from the end. -/
def step : Walker Unit := do
  match ← look entries with
  | .token _ => modify fun w => { w with pos := w.pos + 1 }
  | .ending _ => return ()

def accept (k : Token.Kind) : Walker Bool := do
  if (← look entries).kind? = some k then
    step entries
    return true
  else return false

def rejectAt (e : Entry) (cause : Rejection.Cause) : Walker α := fun w =>
  .error (.rejected ⟨e.place, e.near, cause, w.trail.reverse⟩) w

def reject (cause : Rejection.Cause) : Walker α := do rejectAt (← look entries) cause

def expect (k : Token.Kind) : Walker Unit := do
  if !(← accept entries k) then reject entries (.expected [.kind k])

def within (production : Production) (walker : Walker α) : Walker α := fun w =>
  match walker { w with trail := production :: w.trail } with
  | .ok a w => .ok a { w with trail := w.trail.tail }
  | .error s w => .error s { w with trail := w.trail.tail }

/-- An expression and the token that ends it. -/
def expressionThen (expr : Walker Node) (terminator : Token.Kind) : Walker Node := do
  let e ← expr
  expect entries terminator
  return e

/-- An expression that may be left out, and the token that ends it. -/
def clause (expr : Walker Node) (terminator : Token.Kind) : Walker (Option Node) := do
  if ← accept entries terminator then return none
  else return some (← expressionThen entries expr terminator)

/-- A keyword and the condition in parentheses after it. -/
def condition (expr : Walker Node) (keyword : Token.Kind) : Walker Node := do
  expect entries keyword
  expect entries .leftParen
  expressionThen entries expr .rightParen

end Steps

end Walker

/-! ## Calls -/

/-- The functions that call each other, and the loops among them. -/
inductive Call : Type → Type where
  | program : Call Program
  /-- Statements up to the end. -/
  | statements : Call (List Node)
  | statement : Call Node
  /-- Statements up to a closing brace. -/
  | blockRest : Call (List Node)
  | expression : Call Node
  | assign : Call Node
  | level (level : Parser.Level) : Call Node
  /-- Operators and operands after the first operand. -/
  | levelRest (level : Parser.Level) (left : Node) : Call Node
  | unary : Call Node
  | primary : Call Node

/-- What every call does. -/
abbrev Calls := ∀ α : Type, Call α → Walker α

namespace Call

/-- The call for what stands between the operators of a level. -/
def operand : Parser.Level → Call Node
  | .equality => .level .relational
  | .relational => .level .add
  | .add => .level .mul
  | .mul => .unary

open Walker in
/-- What a call does, where the calls that it makes do what `calls` says. -/
def body (entries : List Entry) (calls : Calls) : {α : Type} → Call α → Walker α
  | _, program => within .program (calls _ statements)
  | _, statements => do
    if (← look entries).kind? = none then return []
    else
      let first ← calls _ statement
      let rest ← calls _ statements
      return first :: rest
  | _, statement => within .stmt do
    match (← look entries).kind? with
    | some .returnWord =>
      expect entries .returnWord
      return .ret (← expressionThen entries (calls _ expression) .semicolon)
    | some .ifWord =>
      let test ← condition entries (calls _ expression) .ifWord
      let yes ← calls _ statement
      if ← accept entries .elseWord then return .cond test yes (some (← calls _ statement))
      else return .cond test yes none
    | some .whileWord =>
      let test ← condition entries (calls _ expression) .whileWord
      return .loop test (← calls _ statement)
    | some .forWord =>
      expect entries .forWord
      expect entries .leftParen
      let init ← clause entries (calls _ expression) .semicolon
      let test ← clause entries (calls _ expression) .semicolon
      let step ← clause entries (calls _ expression) .rightParen
      return .iter init test step (← calls _ statement)
    | some .leftBrace =>
      within .block do
        expect entries .leftBrace
        return .block (← calls _ blockRest)
    | _ => expressionThen entries (calls _ expression) .semicolon
  | _, blockRest => do
    if ← accept entries .rightBrace then return []
    else if (← look entries).kind? = none then
      reject entries (.expected [.kind .rightBrace, .statement])
    else
      let first ← calls _ statement
      let rest ← calls _ blockRest
      return first :: rest
  | _, expression => within .expr (calls _ assign)
  | _, assign => within .assign do
    let target ← look entries
    let left ← calls _ (level .equality)
    if (← look entries).kind? = some .assign then
      match left with
      | .ident _ =>
        step entries
        let right ← calls _ assign
        return .binary .assign left right
      | _ => rejectAt target (.invalidTarget left)
    else return left
  | _, level l => within l.production do
    let first ← calls _ (operand l)
    calls _ (levelRest l first)
  | _, levelRest l left => do
    match (← look entries).kind?.bind l.operator? with
    | none => return left
    | some op =>
      step entries
      let right ← calls _ (operand l)
      calls _ (levelRest l (.binary op left right))
  | _, unary => within .unary do
    if ← accept entries .plus then calls _ primary
    else if ← accept entries .minus then return .binary .sub (.num 0) (← calls _ primary)
    else calls _ primary
  | _, primary => within .primary do
    match ← look entries with
    | .token ⟨.number, content, _⟩ =>
      match Text.readDecimal content with
      | .error _ => reject entries .literalOutOfRange
      | .ok value =>
        step entries
        return .num value
    | .token ⟨.name, content, _⟩ =>
      step entries
      return .ident content
    | .token ⟨.leftParen, _, _⟩ =>
      step entries
      let inner ← calls _ expression
      expect entries .rightParen
      return inner
    | _ => reject entries (.expected Expectation.operand)

end Call

/-- The calls with all those filled in that are nested less than `depth` deep.  Deeper ones
do what `bottom` says. -/
def descend (entries : List Entry) (bottom : Calls) : Nat → Calls
  | 0 => bottom
  | depth + 1 => fun _ call => call.body entries (descend entries bottom depth)

/-! ## A walk and a cursor -/

namespace Walk

/-- The cursor in the tokens where a walk stands. -/
def cursor (tokens : Tokens) (w : Walk) : Cursor :=
  ⟨tokens.body.drop w.pos, tokens.ending, w.trail⟩

theorem length_cursor (tokens : Tokens) (w : Walk) :
    (w.cursor tokens).rest.length = tokens.body.length - w.pos :=
  List.length_drop

end Walk

theorem Tokens.length_entries (tokens : Tokens) :
    tokens.entries.length = tokens.body.length + 1 := by
  simp [entries]

theorem Tokens.getElem?_entries {tokens : Tokens} {w : Walk} (h : w.pos ≤ tokens.body.length) :
    tokens.entries[w.pos]? = some (w.cursor tokens).entry := by
  rcases Nat.lt_or_eq_of_le h with hlt | heq
  · rw [Walk.cursor, Cursor.entry, List.drop_eq_getElem_cons hlt]
    simp [Tokens.entries, List.getElem?_append, hlt]
  · simp [Tokens.entries, Walk.cursor, Cursor.entry, heq]

/-- The walk and the cursor end in the same way, the walk no further than the end. -/
inductive Same (tokens : Tokens) {α : Type} :
    EStateM.Result Walk.Stop Walk α → EStateM.Result Rejection Cursor α → Prop where
  | ok {w : Walk} (a : α) : w.pos ≤ tokens.body.length →
      Same tokens (.ok a w) (.ok a (w.cursor tokens))
  | error {w : Walk} (r : Rejection) : w.pos ≤ tokens.body.length →
      Same tokens (.error (.rejected r) w) (.error r (w.cursor tokens))

/-- From the walk on, the walker does what the reader does. -/
def Follows (tokens : Tokens) {α : Type} (w : Walk) (walker : Walker α) (p : Parser α) : Prop :=
  Same tokens (walker w) (p (w.cursor tokens))

/-- The walker does what the reader does where fewer than `n` tokens are left. -/
def Mirrors (tokens : Tokens) {α : Type} (n : Nat) (walker : Walker α) (p : Parser α) : Prop :=
  ∀ w : Walk, w.pos ≤ tokens.body.length → tokens.body.length < w.pos + n →
    Follows tokens w walker p

section

variable {tokens : Tokens} {more : List Entry} {α β : Type} {n m least : Nat} {w : Walk}

namespace Walker

theorem look_eq (h : w.pos ≤ tokens.body.length) :
    look (tokens.entries ++ more) w = .ok (w.cursor tokens).entry w := by
  have hlt : w.pos < tokens.entries.length := by
    rw [Tokens.length_entries]
    omega
  rw [look, List.getElem?_append_left hlt, Tokens.getElem?_entries h]

end Walker

namespace Follows

variable {x : Walker α} {p : Parser α} {f : α → Walker β} {g : α → Parser β}

theorem pure (a : α) (h : w.pos ≤ tokens.body.length) :
    Follows tokens w (pure a) (Pure.pure a) :=
  .ok a h

/-- The second of two walkers starts past the tokens that the first one takes. -/
theorem bind (h : Follows tokens w x p) (hw : w.pos ≤ tokens.body.length)
    (ht : Parser.Traced least p (w.cursor tokens).rest)
    (hf : ∀ a w', w'.pos ≤ tokens.body.length → w.pos + least ≤ w'.pos →
      Follows tokens w' (f a) (g a)) :
    Follows tokens w (x >>= f) (p >>= g) := by
  unfold Follows at h ⊢
  generalize hx : x w = out at h
  generalize hp : p (w.cursor tokens) = result at h
  cases h with
  | ok a hle =>
    rw [bind_of_ok hx, bind_of_ok hp]
    have hlength := ht.length_le hp
    rw [Walk.length_cursor, Walk.length_cursor] at hlength
    exact hf a _ hle (by omega)
  | error r hle =>
    rw [bind_of_error hx, bind_of_error hp]
    exact .error r hle

theorem look {f : Entry → Walker β} {g : Cursor → Parser β} (hw : w.pos ≤ tokens.body.length)
    (h : Follows tokens w (f (w.cursor tokens).entry) (g (w.cursor tokens))) :
    Follows tokens w (Walker.look (tokens.entries ++ more) >>= f) (EStateM.get >>= g) := by
  unfold Follows
  rw [bind_of_ok (Walker.look_eq hw)]
  exact h

theorem within (production : Production)
    (h : Follows tokens { w with trail := production :: w.trail } x p) :
    Follows tokens w (Walker.within production x) (Parser.within production p) := by
  unfold Follows at h ⊢
  have hcursor : Walk.cursor tokens { w with trail := production :: w.trail } =
      { w.cursor tokens with trail := production :: (w.cursor tokens).trail } := rfl
  rw [hcursor] at h
  rw [Walker.within, Parser.within]
  generalize x { w with trail := production :: w.trail } = out at h
  generalize p { w.cursor tokens with trail := production :: (w.cursor tokens).trail } = result at h
  cases h with
  | @ok w' a hle => exact Same.ok (w := { w' with trail := w'.trail.tail }) a hle
  | @error w' r hle => exact Same.error (w := { w' with trail := w'.trail.tail }) r hle

theorem rejectAt (hw : w.pos ≤ tokens.body.length) (spot : Cursor) (cause : Rejection.Cause) :
    Follows tokens w (Walker.rejectAt spot.entry cause : Walker α) (Parser.failAt spot cause) := by
  unfold Follows Walker.rejectAt Parser.failAt
  rw [Cursor.place_entry, Cursor.near_entry]
  exact .error _ hw

theorem reject (hw : w.pos ≤ tokens.body.length) (cause : Rejection.Cause) :
    Follows tokens w (Walker.reject (tokens.entries ++ more) cause : Walker α)
      (Parser.fail cause) :=
  look (f := fun e => (Walker.rejectAt e cause : Walker α))
    (g := fun c => Parser.failAt c cause) hw (rejectAt hw _ cause)

/-- A step over a token that is there. -/
theorem step {k : Token.Kind} (hk : (w.cursor tokens).kind? = some k)
    (hw : w.pos ≤ tokens.body.length) :
    Follows tokens w (Walker.step (tokens.entries ++ more)) Parser.advance := by
  obtain ⟨t, -, hrest⟩ := Parser.took_of_next hk
  have hentry : (w.cursor tokens).entry = .token t := by rw [Cursor.entry, hrest]
  have hlength := Walk.length_cursor tokens w
  rw [hrest, List.length_cons] at hlength
  have hnext : Walk.cursor tokens { w with pos := w.pos + 1 } =
      { w.cursor tokens with rest := (w.cursor tokens).rest.tail } := by
    simp [Walk.cursor]
  unfold Follows Walker.step
  rw [bind_of_ok (Walker.look_eq hw), hentry]
  have hstep : Same tokens (.ok () { w with pos := w.pos + 1 })
      (.ok () (Walk.cursor tokens { w with pos := w.pos + 1 })) := .ok () (by
    dsimp only
    omega)
  rw [hnext] at hstep
  exact hstep

theorem accept (k : Token.Kind) (hw : w.pos ≤ tokens.body.length) :
    Follows tokens w (Walker.accept (tokens.entries ++ more) k) (Parser.accept k) := by
  refine look hw ?_
  rw [Cursor.kind?_entry]
  by_cases hk : (w.cursor tokens).kind? = some k
  · rw [if_pos hk, if_pos hk]
    exact (step hk hw).bind hw (Cursor.traced_advance hk) fun _ w' hw' _ => pure true hw'
  · rw [if_neg hk, if_neg hk]
    exact pure false hw

theorem expect (k : Token.Kind) (hw : w.pos ≤ tokens.body.length) :
    Follows tokens w (Walker.expect (tokens.entries ++ more) k) (Parser.expect k) := by
  refine (accept k hw).bind hw (Parser.Traced.accept k) fun b w' hw' _ => ?_
  cases b with
  | false => exact reject hw' _
  | true => exact pure () hw'

/-- The token that a rule was chosen for is there. -/
theorem keyword {k : Token.Kind} (hk : (w.cursor tokens).kind? = some k)
    (hw : w.pos ≤ tokens.body.length) :
    Follows tokens w (Walker.expect (tokens.entries ++ more) k) Parser.advance := by
  have h : Follows tokens w (Walker.expect (tokens.entries ++ more) k) (Parser.expect k) :=
    expect k hw
  have htook : Parser.expect k (w.cursor tokens) = Parser.advance (w.cursor tokens) := by
    obtain ⟨t, ht, hrest⟩ := Parser.took_of_next hk
    have hcursor : w.cursor tokens =
        ⟨t :: (w.cursor tokens).rest.tail, tokens.ending, w.trail⟩ := by
      rw [← hrest]
      rfl
    rw [hcursor, Parser.Reads.expect ht]
    rfl
  rw [Follows, htook] at h
  exact h

end Follows

namespace Mirrors

variable {x : Walker α} {p p' : Parser α} {f : α → Walker β} {g : α → Parser β}

theorem zero (x : Walker α) (p : Parser α) : Mirrors tokens 0 x p :=
  fun _ hw hn => absurd hn (Nat.not_lt.2 hw)

theorem mono (h : Mirrors tokens n x p) (hle : m ≤ n) : Mirrors tokens m x p :=
  fun w hw hm => h w hw (by omega)

theorem of_agrees (h : Mirrors tokens n x p) (hp : Parser.Agrees n p p') :
    Mirrors tokens n x p' := by
  intro w hw hn
  have hsame := h w hw hn
  have hlt : (w.cursor tokens).rest.length < n := by
    rw [Walk.length_cursor]
    omega
  rw [Follows, hp _ hlt] at hsame
  exact hsame

theorem pure (a : α) : Mirrors tokens n (pure a) (Pure.pure a) := fun _ hw _ => Follows.pure a hw

theorem bind (hx : Mirrors tokens n x p) (hp : Parser.Local least p)
    (hf : ∀ a, Mirrors tokens m (f a) (g a)) (hle : n ≤ m + least) :
    Mirrors tokens n (x >>= f) (p >>= g) :=
  fun w hw hn => (hx w hw hn).bind hw (hp _) fun a w' hw' hlt => hf a w' hw' (by omega)

/-- The first walker need not take a token. -/
theorem andThen (hx : Mirrors tokens n x p) (hp : Parser.Local least p)
    (hf : ∀ a, Mirrors tokens n (f a) (g a)) : Mirrors tokens n (x >>= f) (p >>= g) :=
  hx.bind hp hf (Nat.le_add_right _ _)

/-- A value is made of what a walker finds. -/
theorem map (hx : Mirrors tokens n x p) (hp : Parser.Local least p) (make : α → β) :
    Mirrors tokens n (do return make (← x)) (do return make (← p)) :=
  hx.andThen hp fun a => pure (make a)

theorem within (production : Production) (h : Mirrors tokens n x p) :
    Mirrors tokens n (Walker.within production x) (Parser.within production p) :=
  fun _ hw hn => Follows.within production (h _ hw hn)

theorem accept {k : Token.Kind} {f : Bool → Walker β} {g : Bool → Parser β}
    (hf : ∀ b, Mirrors tokens n (f b) (g b)) :
    Mirrors tokens n (Walker.accept (tokens.entries ++ more) k >>= f) (Parser.accept k >>= g) :=
  andThen (fun _ hw _ => Follows.accept k hw) (fun _ => Parser.Traced.accept k) hf

theorem expect {k : Token.Kind} {f : Unit → Walker β} {g : Unit → Parser β}
    (hf : ∀ u, Mirrors tokens n (f u) (g u)) :
    Mirrors tokens n (Walker.expect (tokens.entries ++ more) k >>= f) (Parser.expect k >>= g) :=
  andThen (fun _ hw _ => Follows.expect k hw) (fun _ => Parser.Traced.expect k) hf

end Mirrors

/-- What follows a token that is taken has one token less. -/
theorem Follows.take {x : Walker Unit} {f : Unit → Walker β} {g : Unit → Parser β}
    {k : Token.Kind} (hx : Follows tokens w x Parser.advance)
    (hk : (w.cursor tokens).kind? = some k) (hw : w.pos ≤ tokens.body.length)
    (hn : tokens.body.length < w.pos + (n + 1)) (hf : Mirrors tokens n (f ()) (g ())) :
    Follows tokens w (x >>= f) (Parser.advance >>= g) :=
  hx.bind hw (Cursor.traced_advance hk) fun _ w' hw' hlt => hf w' hw' (by omega)

/-! ## Expressions -/

variable {calls : Calls} {bound : Nat}

theorem primary_body (hexpr : Mirrors tokens n (calls _ .expression) (Parser.expression bound)) :
    Mirrors tokens (n + 1) (Call.primary.body (tokens.entries ++ more) calls)
      (Parser.primary (Parser.expression bound)) := by
  refine Mirrors.within _ fun w hw hn => Follows.look hw ?_
  cases hrest : (w.cursor tokens).rest with
  | nil =>
    rw [Cursor.entry, hrest]
    exact Follows.reject hw _
  | cons t ts =>
    have hk : (w.cursor tokens).kind? = some t.kind := by rw [Cursor.kind?, hrest]; rfl
    rw [Cursor.entry, hrest]
    obtain ⟨kind, content, place⟩ := t
    cases kind with
    | number =>
      dsimp only
      cases Text.readDecimal content with
      | error e => exact Follows.reject hw _
      | ok value => exact (Follows.step hk hw).take hk hw hn (.pure _)
    | name => exact (Follows.step hk hw).take hk hw hn (.pure _)
    | leftParen =>
      refine (Follows.step hk hw).take hk hw hn ?_
      exact hexpr.andThen (Parser.expression_local bound) fun e =>
        Mirrors.expect fun _ => .pure e
    | _ => exact Follows.reject hw _

theorem unary_body
    (hprimary : Mirrors tokens n (calls _ .primary) (Parser.primary (Parser.expression bound))) :
    Mirrors tokens n (Call.unary.body (tokens.entries ++ more) calls)
      (Parser.unary (Parser.expression bound)) := by
  refine Mirrors.within _ (Mirrors.accept fun plus => ?_)
  cases plus with
  | true => exact hprimary
  | false =>
    refine Mirrors.accept fun minus => ?_
    cases minus with
    | true => exact hprimary.map (Parser.primary_local (Parser.expression_local bound)) _
    | false => exact hprimary

section Level

variable {level : Parser.Level} {next : Parser Node} (hlocal : Parser.Local 1 next)
  (hoperand : Mirrors tokens n (calls _ (.operand level)) next)

include hlocal hoperand

theorem level_body (hrest : ∀ left, Mirrors tokens n (calls _ (.levelRest level left))
      (Parser.chainRest level next bound left)) :
    Mirrors tokens n ((Call.level level).body (tokens.entries ++ more) calls)
      (Parser.chain level bound next) :=
  Mirrors.within _ (hoperand.andThen hlocal hrest)

theorem levelRest_body (left : Node) (hrest : ∀ left, Mirrors tokens n
      (calls _ (.levelRest level left)) (Parser.chainRest level next bound left)) :
    Mirrors tokens (n + 1) ((Call.levelRest level left).body (tokens.entries ++ more) calls)
      (Parser.chainRest level next (bound + 1) left) := by
  refine fun w hw hn => Follows.look hw ?_
  rw [Cursor.kind?_entry]
  cases hop : (w.cursor tokens).kind?.bind level.operator? with
  | none => exact Follows.pure left hw
  | some op =>
    obtain ⟨k, hk, -⟩ := Option.bind_eq_some_iff.1 hop
    refine (Follows.step hk hw).take hk hw hn ?_
    exact hoperand.andThen hlocal fun right => hrest _

end Level

theorem assign_body
    (hlevel : Mirrors tokens (n + 1) (calls _ (.level .equality))
      (Parser.operation bound (Parser.expression bound)))
    (hassign : Mirrors tokens n (calls _ .assign) (Parser.assign bound)) :
    Mirrors tokens (n + 1) (Call.assign.body (tokens.entries ++ more) calls)
      (Parser.assign (bound + 1)) := by
  refine Mirrors.within _ fun w hw hn => Follows.look hw ?_
  refine (hlevel w hw hn).bind hw (Parser.operation_local (Parser.expression_local bound) bound _)
    fun left w' hw' hlt => Follows.look hw' ?_
  rw [Cursor.kind?_entry]
  by_cases hk : (w'.cursor tokens).kind? = some .assign
  · rw [if_pos hk, if_pos hk]
    cases left with
    | ident name =>
      have hn' : tokens.body.length < w'.pos + (n + 1) := by omega
      refine (Follows.step hk hw').take hk hw' hn' ?_
      exact hassign.map (Parser.assign_local bound) _
    | _ => exact Follows.rejectAt hw' (w.cursor tokens) _
  · rw [if_neg hk, if_neg hk]
    exact Follows.pure left hw'

/-! ## Statements -/

section Parts

variable {expr : Walker Node} (hexpr : Mirrors tokens n expr (Parser.expression bound))

include hexpr

theorem expressionThen_mirrors (terminator : Token.Kind) :
    Mirrors tokens n (Walker.expressionThen (tokens.entries ++ more) expr terminator)
      (Parser.expressionThen bound terminator) :=
  hexpr.andThen (Parser.expression_local bound) fun e => Mirrors.expect fun _ => .pure e

theorem clause_mirrors (terminator : Token.Kind) :
    Mirrors tokens n (Walker.clause (tokens.entries ++ more) expr terminator)
      (Parser.clause bound terminator) := by
  refine Mirrors.accept fun missing => ?_
  cases missing with
  | true => exact .pure none
  | false =>
    exact (expressionThen_mirrors hexpr terminator).map
      (Parser.expressionThen_local bound terminator) some

theorem condition_follows {k : Token.Kind} (hk : (w.cursor tokens).kind? = some k)
    (hw : w.pos ≤ tokens.body.length) (hn : tokens.body.length < w.pos + (n + 1)) :
    Follows tokens w (Walker.condition (tokens.entries ++ more) expr k) (Parser.condition bound) :=
  (Follows.keyword hk hw).take hk hw hn
    (Mirrors.expect fun _ => expressionThen_mirrors hexpr .rightParen)

end Parts

theorem statement_body
    (hexpr : Mirrors tokens (n + 1) (calls _ .expression) (Parser.expression (bound + 1)))
    (hstmt : Mirrors tokens n (calls _ .statement) (Parser.statement bound))
    (hblock : Mirrors tokens n (calls _ .blockRest)
      (Parser.blockRest (Parser.statement bound) bound)) :
    Mirrors tokens (n + 1) (Call.statement.body (tokens.entries ++ more) calls)
      (Parser.statement (bound + 1)) := by
  have hless := hexpr.mono (Nat.le_succ n)
  have hlocal := Parser.statement_local bound
  have hsimple : Mirrors tokens (n + 1)
      (Walker.expressionThen (tokens.entries ++ more) (calls _ .expression) .semicolon)
      (Parser.expressionThen (bound + 1) .semicolon) := expressionThen_mirrors hexpr .semicolon
  refine Mirrors.within _ fun w hw hn => Follows.look hw ?_
  rw [Cursor.kind?_entry]
  -- What comes after the condition of an `if` or a `while` starts past its keyword.
  have hbranch : ∀ {k : Token.Kind} {f : Node → Walker Node} {g : Node → Parser Node},
      (w.cursor tokens).kind? = some k → (∀ test, Mirrors tokens n (f test) (g test)) →
      Follows tokens w (Walker.condition (tokens.entries ++ more) (calls _ .expression) k >>= f)
        (Parser.condition (bound + 1) >>= g) := by
    intro k f g hk hf
    obtain ⟨t, -, hrest⟩ := Parser.took_of_next hk
    refine (condition_follows hless hk hw hn).bind hw
      (hrest ▸ Parser.condition_traced (bound + 1) t _) fun test w' hw' hlt => ?_
    exact hf test w' hw' (by omega)
  cases hk : (w.cursor tokens).kind? with
  | none => exact hsimple w hw hn
  | some k =>
    cases k with
    | returnWord =>
      refine (Follows.keyword hk hw).take hk hw hn ?_
      exact (expressionThen_mirrors hless .semicolon).map (Parser.expressionThen_local _ _) _
    | ifWord =>
      refine hbranch hk fun test => hstmt.andThen hlocal fun yes => Mirrors.accept fun no => ?_
      cases no with
      | true => exact hstmt.map hlocal _
      | false => exact .pure _
    | whileWord => exact hbranch hk fun test => hstmt.map hlocal _
    | forWord =>
      refine (Follows.keyword hk hw).take hk hw hn (Mirrors.expect fun _ => ?_)
      exact (clause_mirrors hless .semicolon).andThen (Parser.clause_local _ _) fun init =>
        (clause_mirrors hless .semicolon).andThen (Parser.clause_local _ _) fun test =>
        (clause_mirrors hless .rightParen).andThen (Parser.clause_local _ _) fun step =>
        hstmt.map hlocal _
    | leftBrace =>
      have hk' : (Walk.cursor tokens { w with trail := .block :: w.trail }).kind? =
          some .leftBrace := hk
      refine Follows.within .block ((Follows.keyword hk' hw).take hk' hw hn ?_)
      exact hblock.map (Parser.blockRest_local hlocal _) _
    | _ => exact hsimple w hw hn

theorem blockRest_body {stmt : Parser Node} (hlocal : Parser.Local 1 stmt)
    (hstmt : Mirrors tokens (n + 1) (calls _ .statement) stmt)
    (hrest : Mirrors tokens n (calls _ .blockRest) (Parser.blockRest stmt bound)) :
    Mirrors tokens (n + 1) (Call.blockRest.body (tokens.entries ++ more) calls)
      (Parser.blockRest stmt (bound + 1)) := by
  refine Mirrors.accept fun closed => ?_
  cases closed with
  | true => exact .pure []
  | false =>
    refine fun w hw hn => Follows.look hw ?_
    rw [Cursor.kind?_entry]
    by_cases hk : (w.cursor tokens).kind? = none
    · rw [if_pos hk, if_pos (Cursor.isEmpty_rest_iff.2 hk)]
      exact Follows.reject hw _
    · rw [if_neg hk, if_neg fun h => hk (Cursor.isEmpty_rest_iff.1 h)]
      exact hstmt.bind hlocal (fun first => hrest.map (Parser.blockRest_local hlocal bound) _)
        (Nat.le_refl _) w hw hn

theorem statements_body {count : Nat}
    (hstmt : Mirrors tokens (n + 1) (calls _ .statement) (Parser.statement bound))
    (hrest : Mirrors tokens n (calls _ .statements) (Parser.statements bound count)) :
    Mirrors tokens (n + 1) (Call.statements.body (tokens.entries ++ more) calls)
      (Parser.statements bound (count + 1)) := by
  refine fun w hw hn => Follows.look hw ?_
  rw [Cursor.kind?_entry]
  by_cases hk : (w.cursor tokens).kind? = none
  · rw [if_pos hk, if_pos (Cursor.isEmpty_rest_iff.2 hk)]
    exact Follows.pure [] hw
  · rw [if_neg hk, if_neg fun h => hk (Cursor.isEmpty_rest_iff.1 h)]
    exact hstmt.bind (Parser.statement_local bound)
      (fun first => hrest.map (Parser.statements_local bound count) _) (Nat.le_refl _) w hw hn

end

/-! ## All calls together -/

namespace Call

/-- The rule that a call reads, with a bound. -/
def reader (bound : Nat) : {α : Type} → Call α → Parser α
  | _, program => Parser.program bound
  | _, statements => Parser.statements bound bound
  | _, statement => Parser.statement bound
  | _, blockRest => Parser.blockRest (Parser.statement bound) bound
  | _, expression => Parser.expression bound
  | _, assign => Parser.assign bound
  | _, level l => Parser.chain l bound (l.operandReader bound (Parser.expression bound))
  | _, levelRest l left =>
    Parser.chainRest l (l.operandReader bound (Parser.expression bound)) bound left
  | _, unary => Parser.unary (Parser.expression bound)
  | _, primary => Parser.primary (Parser.expression bound)

/-- The tokens that a call takes at least where it succeeds. -/
def least : {α : Type} → Call α → Nat
  | _, program => 0
  | _, statements => 0
  | _, blockRest => 0
  | _, levelRest _ _ => 0
  | _, _ => 1

/-- A call that has taken no token makes calls of a smaller rank only. -/
def rank : {α : Type} → Call α → Nat
  | _, levelRest _ _ => 1
  | _, primary => 1
  | _, unary => 2
  | _, level .mul => 3
  | _, level .add => 4
  | _, level .relational => 5
  | _, level .equality => 6
  | _, assign => 7
  | _, expression => 8
  | _, statement => 9
  | _, blockRest => 10
  | _, statements => 10
  | _, program => 11

theorem reader_operand (bound : Nat) (level : Parser.Level) :
    (operand level).reader bound = level.operandReader bound (Parser.expression bound) := by
  cases level <;> rfl

theorem rank_pos {α : Type} (call : Call α) : 0 < call.rank := by
  cases call with
  | level l => cases l <;> decide
  | _ => exact Nat.succ_pos _

theorem rank_le {α : Type} (call : Call α) : call.rank ≤ 11 := by
  cases call with
  | level l => cases l <;> decide
  | _ => simp [rank]

theorem rank_operand (level : Parser.Level) : (operand level).rank < (Call.level level).rank := by
  cases level <;> decide

theorem rank_levelRest (level : Parser.Level) (left : Node) :
    (levelRest level left).rank < (Call.level level).rank := by
  cases level <;> simp [rank]

theorem operandReader_local (level : Parser.Level) (bound : Nat) :
    Parser.Local 1 (level.operandReader bound (Parser.expression bound)) := by
  have hunary := Parser.unary_local (Parser.expression_local bound)
  have hmul := Parser.chain_local .mul hunary bound
  have hadd := Parser.chain_local .add hmul bound
  cases level with
  | mul => exact hunary
  | add => exact hmul
  | relational => exact hadd
  | equality => exact Parser.chain_local .relational hadd bound

/-- A rule that succeeds takes the tokens that it needs. -/
theorem reader_local {α : Type} (call : Call α) (bound : Nat) :
    Parser.Local call.least (call.reader bound) := by
  cases call with
  | program => exact Parser.program_local bound
  | statements => exact Parser.statements_local bound bound
  | statement => exact Parser.statement_local bound
  | blockRest => exact Parser.blockRest_local (Parser.statement_local bound) bound
  | expression => exact Parser.expression_local bound
  | assign => exact Parser.assign_local bound
  | level l => exact Parser.chain_local l (operandReader_local l bound) bound
  | levelRest l left => exact Parser.chainRest_local (operandReader_local l bound) bound left
  | unary => exact Parser.unary_local (Parser.expression_local bound)
  | primary => exact Parser.primary_local (Parser.expression_local bound)

end Call

/-- At the depth, the calls do what the rules do.  A token that is taken pays for the ranks
of all the calls before the next one. -/
def Covered (tokens : Tokens) (depth : Nat) (calls : Calls) : Prop :=
  ∀ {α : Type} (call : Call α) (n bound : Nat), 12 * n + call.rank ≤ depth + 12 → n ≤ bound →
    Mirrors tokens n (calls α call) (call.reader bound)

namespace Covered

variable {tokens : Tokens} {more : List Entry} {depth n bound : Nat} {calls : Calls} {α β : Type}

theorem zero (tokens : Tokens) (calls : Calls) : Covered tokens 0 calls := by
  intro α call n bound hdepth _
  have hrank := call.rank_pos
  obtain rfl : n = 0 := by omega
  exact .zero _ _

/-- A call that is made before a token is taken. -/
theorem before {call : Call α} (h : Covered tokens depth calls)
    (hdepth : 12 * n + call.rank ≤ depth + 1 + 12) (callee : Call β)
    (hrank : callee.rank < call.rank) (hbound : n ≤ bound) :
    Mirrors tokens n (calls β callee) (callee.reader bound) :=
  h callee n bound (by omega) hbound

/-- A call that is made after a token has been taken. -/
theorem after {call : Call α} (h : Covered tokens depth calls)
    (hdepth : 12 * (n + 1) + call.rank ≤ depth + 1 + 12) (callee : Call β) (hbound : n ≤ bound) :
    Mirrors tokens n (calls β callee) (callee.reader bound) := by
  have hrank := callee.rank_le
  exact h callee n bound (by omega) hbound

/-- One more call on top. -/
theorem succ (h : Covered tokens depth calls) :
    Covered tokens (depth + 1) fun _ call => call.body (tokens.entries ++ more) calls := by
  intro α call n bound hdepth hbound
  cases n with
  | zero => exact .zero _ _
  | succ n =>
    obtain ⟨b, rfl⟩ : ∃ b, bound = b + 1 := ⟨bound - 1, by omega⟩
    have hle : n ≤ b := Nat.le_of_succ_le_succ hbound
    have hle' : n ≤ b + 1 := Nat.le_succ_of_le hle
    cases call with
    | program => exact (h.before hdepth .statements (by decide) hbound).within _
    | statements =>
      refine statements_body (h.before hdepth .statement (by decide) hbound) ?_
      exact (h.after hdepth .statements hle).of_agrees
        (Parser.statements_agrees hle hle' (Nat.le_refl n) hle hle)
    | statement =>
      exact statement_body (h.before hdepth .expression (by decide) hbound)
        (h.after hdepth .statement hle) (h.after hdepth .blockRest hle)
    | blockRest =>
      refine blockRest_body (Parser.statement_local _)
        (h.before hdepth .statement (by decide) hbound) ?_
      exact (h.after hdepth .blockRest hle).of_agrees
        (Parser.blockRest_agrees (Parser.statement_agrees hle hle') (Parser.statement_local b)
          (Nat.le_refl n) hle hle)
    | expression => exact (h.before hdepth .assign (by decide) hbound).within _
    | assign =>
      refine assign_body ?_ (h.after hdepth .assign hle)
      exact (h.before hdepth (.level .equality) (by decide) hbound).of_agrees
        (Parser.operation_agrees (Parser.expression_agrees hle' hle) (Parser.expression_local _)
          hle' hle)
    | level l =>
      have hoperand := h.before hdepth (Call.operand l) (Call.rank_operand l) hbound
      rw [Call.reader_operand] at hoperand
      refine level_body (Call.operandReader_local l _) hoperand fun left => ?_
      exact h.before hdepth (.levelRest l left) (Call.rank_levelRest l left) hbound
    | levelRest l left =>
      have hoperand := h.after hdepth (Call.operand l) hle'
      rw [Call.reader_operand] at hoperand
      refine levelRest_body (Call.operandReader_local l _) hoperand left fun left => ?_
      exact (h.after hdepth (.levelRest l left) hle').of_agrees
        (Parser.chainRest_agrees (.refl n _) (Call.operandReader_local l _) (Nat.le_refl n)
          (by omega) hle' left)
    | unary => exact unary_body (h.before hdepth .primary (by decide) hbound)
    | primary => exact primary_body (h.after hdepth .expression hle')

/-- As deep as one likes. -/
theorem descend (tokens : Tokens) (more : List Entry) (bottom : Calls) (depth : Nat) :
    Covered tokens depth (descend (tokens.entries ++ more) bottom depth) := by
  induction depth with
  | zero => exact zero tokens bottom
  | succ depth ih => exact ih.succ

end Covered

end WordC
