import Mathlib
import WordC.Proofs.Grammar.Descent
import WordC.Proofs.Grammar.Rules
/-!
Reading makes progress, stays in bounds and comes to an end.

A list of entries with the end in the last place and nowhere else is that of some tokens.
On it every call ends, at a depth that grows with the length alone, and no index that was
looked at lay outside.  A call that succeeds has moved on by the tokens that it needs, and
none stands past the end or behind where it started.  So it makes no difference what else
stands behind the end, and a list with several ends is read up to the first.
-/

namespace WordC

/-! ## Closed lists -/

/-- The end stands last, and nowhere else. -/
structure Entry.Closed (entries : List Entry) : Prop where
  nonempty : entries ≠ []
  ending : ∀ i e, entries[i]? = some e → (e.kind? = none ↔ i + 1 = entries.length)

theorem Entry.Closed.tail {e e' : Entry} {es : List Entry} (h : Entry.Closed (e :: e' :: es)) :
    Entry.Closed (e' :: es) := by
  refine ⟨List.cons_ne_nil _ _, fun i a ha => ?_⟩
  have hlast := h.ending (i + 1) a ha
  rw [List.length_cons, Nat.add_right_cancel_iff] at hlast
  exact hlast

theorem Entry.Closed.exists_tokens {entries : List Entry} (h : Entry.Closed entries) :
    ∃ tokens : Tokens, tokens.entries = entries := by
  induction entries with
  | nil => exact absurd rfl h.nonempty
  | cons e es ih =>
    have hfirst := h.ending 0 e rfl
    cases es with
    | nil =>
      cases e with
      | token t => cases hfirst.2 rfl
      | ending place => exact ⟨⟨[], place⟩, rfl⟩
    | cons e' es =>
      obtain ⟨tokens, htokens⟩ := ih h.tail
      cases e with
      | token t =>
        refine ⟨⟨t :: tokens.body, tokens.ending⟩, ?_⟩
        rw [← htokens]
        rfl
      | ending place =>
        have hlength := hfirst.1 rfl
        simp at hlength

/-- Up to the first end, a list is closed. -/
theorem Entry.exists_tokens_of_ending {entries : List Entry} {place : Place}
    (h : Entry.ending place ∈ entries) : ∃ tokens : Tokens, tokens.entries <+: entries := by
  induction entries with
  | nil => cases h
  | cons e es ih =>
    cases e with
    | ending first => exact ⟨⟨[], first⟩, es, rfl⟩
    | token t =>
      have hes : Entry.ending place ∈ es := by simpa using h
      obtain ⟨tokens, htokens⟩ := ih hes
      exact ⟨⟨t :: tokens.body, tokens.ending⟩, List.cons_prefix_cons.2 ⟨rfl, htokens⟩⟩

namespace Tokens

theorem closed_entries (tokens : Tokens) : Entry.Closed tokens.entries := by
  refine ⟨by simp [entries], fun i e he => ?_⟩
  have hlt : i < tokens.entries.length := (List.getElem?_eq_some_iff.1 he).1
  rw [length_entries] at hlt ⊢
  have hentry := getElem?_entries (w := ⟨i, []⟩) (Nat.le_of_lt_succ hlt)
  obtain rfl := Option.some.inj (hentry.symm.trans he)
  rw [Cursor.kind?_entry]
  simp only [Cursor.kind?, Walk.cursor, Option.map_eq_none_iff, List.head?_eq_none_iff,
    List.drop_eq_nil_iff]
  omega

theorem entries_injective {tokens other : Tokens} (h : tokens.entries = other.entries) :
    tokens = other := by
  obtain ⟨body, ending⟩ := tokens
  obtain ⟨body', ending'⟩ := other
  obtain ⟨hbody, hending⟩ := List.append_inj' h rfl
  have htokens : Function.Injective Entry.token := fun _ _ => Entry.token.inj
  obtain rfl := htokens.list_map hbody
  cases hending
  rfl

end Tokens

/-! ## What is left -/

namespace Parser

/-- The reader leaves an end of what was left, whether it succeeds or fails. -/
def Narrows {α : Type} (p : Parser α) : Prop :=
  ∀ c : Cursor,
    match p c with
    | .ok _ d => d.rest <:+ c.rest
    | .error _ d => d.rest <:+ c.rest

theorem Built.narrows {α : Type} {S : Cursor → Prop} {p : Parser α}
    (h : Built S p) (hS : ∀ c, S c) : Narrows p := by
  induction h with
  | pure a => exact fun c => List.suffix_refl c.rest
  | @bind _ _ p f _ _ hp hf =>
    intro c
    have hpc := hp c
    cases hrun : p c with
    | ok a d =>
      rw [hrun] at hpc
      have hfd := hf a d
      rw [bind_of_ok hrun]
      generalize f a d = result at hfd ⊢
      cases result with
      | ok b e => exact hfd.trans hpc
      | error r e => exact hfd.trans hpc
    | error r d =>
      rw [hrun] at hpc
      rw [bind_of_error hrun]
      exact hpc
  | @get _ f _ hf => exact fun c => hf c (hS c) c
  | fail cause => exact fun c => List.suffix_refl c.rest
  | failAt cause _ => exact fun c => List.suffix_refl c.rest
  | @within _ p production _ hp =>
    intro c
    have hpc := hp { c with trail := production :: c.trail }
    rw [Parser.within]
    generalize p { c with trail := production :: c.trail } = result at hpc ⊢
    cases result with
    | ok a d => exact hpc
    | error r d => exact hpc
  | advance => exact fun c => List.tail_suffix c.rest

/-- Statements that are read to the end leave nothing. -/
theorem rest_of_statements {bound count : Nat} {c d : Cursor} {nodes : List Node}
    (hcount : c.rest.length < count) (h : statements bound count c = .ok nodes d) :
    d.rest = [] := by
  induction count generalizing c nodes with
  | zero => exact absurd hcount (Nat.not_lt_zero _)
  | succ count ih =>
    obtain ⟨ts, ending, trail⟩ := c
    cases ts with
    | nil =>
      cases h
      rfl
    | cons t ts =>
      change (statement bound >>= fun first => statements bound count >>= fun rest =>
        pure (first :: rest) : Parser (List Node)) ⟨t :: ts, ending, trail⟩ = .ok nodes d at h
      obtain ⟨first, e, hfirst, h⟩ := bind_ok h
      obtain ⟨rest, e', hrest, h⟩ := bind_ok h
      cases h
      have hless := (statement_local bound _).length_le hfirst
      dsimp only at hcount hless
      exact ih (by omega) hrest

theorem rest_of_program {bound : Nat} {c d : Cursor} {p : Program}
    (hbound : c.rest.length < bound) (h : program bound c = .ok p d) : d.rest = [] := by
  rw [program, Parser.within] at h
  cases hrun : statements bound bound { c with trail := .program :: c.trail } with
  | error r e =>
    rw [hrun] at h
    cases h
  | ok nodes e =>
    rw [hrun] at h
    cases h
    have hrest : e.rest = [] :=
      rest_of_statements (c := { c with trail := .program :: c.trail }) hbound hrun
    exact hrest

end Parser

theorem Call.reader_narrows {α : Type} (call : Call α) (bound : Nat) :
    Parser.Narrows (call.reader bound) := by
  have hexpr : Parser.Built (fun _ => True) (Parser.expression bound) := .expression bound
  have hoperand : ∀ level : Parser.Level, Parser.Built (fun _ => True)
      (level.operandReader bound (Parser.expression bound)) := by
    intro level
    cases level with
    | mul => exact .unary hexpr
    | add => exact .chain _ _ (.unary hexpr)
    | relational => exact .chain _ _ (.chain _ _ (.unary hexpr))
    | equality => exact .chain _ _ (.chain _ _ (.chain _ _ (.unary hexpr)))
  refine Parser.Built.narrows (S := fun _ => True) ?_ fun _ => trivial
  cases call with
  | program => exact .program bound
  | statements => exact .statements bound bound
  | statement => exact .statement bound
  | blockRest => exact .blockRest (.statement bound) bound
  | expression => exact hexpr
  | assign => exact .assign bound
  | level l => exact .chain l bound (hoperand l)
  | levelRest l left => exact .chainRest l (hoperand l) bound left
  | unary => exact .unary hexpr
  | primary => exact .primary hexpr

/-! ## How calls end -/

/-- The call ends, on an entry that is there and not behind where it started.  Where it
succeeds, it has moved on by `least` entries or more. -/
inductive Walk.Ends (entries : List Entry) (w : Walk) (least : Nat) {α : Type} :
    EStateM.Result Walk.Stop Walk α → Prop where
  | ok {w' : Walk} (a : α) : w.pos + least ≤ w'.pos → w'.pos < entries.length →
      Walk.Ends entries w least (.ok a w')
  | rejected {w' : Walk} (r : Rejection) : w.pos ≤ w'.pos → w'.pos < entries.length →
      Walk.Ends entries w least (.error (.rejected r) w')

section

variable {tokens : Tokens} {α : Type} {w : Walk}

theorem Walk.cursor_inj {w w' : Walk} (h : w.pos ≤ tokens.body.length)
    (h' : w'.pos ≤ tokens.body.length) (heq : w.cursor tokens = w'.cursor tokens) : w = w' := by
  have hlength : (w.cursor tokens).rest.length = (w'.cursor tokens).rest.length := by rw [heq]
  rw [Walk.length_cursor, Walk.length_cursor] at hlength
  have htrail : w.trail = w'.trail := congrArg Cursor.trail heq
  obtain ⟨pos, trail⟩ := w
  obtain ⟨pos', trail'⟩ := w'
  dsimp only at h h' hlength htrail
  obtain rfl : pos = pos' := by omega
  rw [htrail]

/-- A rule ends in one way only, and so does the walk that mirrors it. -/
theorem Same.unique {out out' : EStateM.Result Walk.Stop Walk α}
    {result : EStateM.Result Rejection Cursor α} (h : Same tokens out result)
    (h' : Same tokens out' result) : out = out' := by
  cases h with
  | @ok w a hle =>
    generalize hresult : EStateM.Result.ok a (w.cursor tokens) = result at h'
    cases h' with
    | ok a' hle' =>
      obtain ⟨rfl, hcursor⟩ := EStateM.Result.ok.inj hresult
      rw [Walk.cursor_inj hle hle' hcursor]
    | error r hle' => cases hresult
  | @error w r hle =>
    generalize hresult : EStateM.Result.error r (w.cursor tokens) = result at h'
    cases h' with
    | ok a' hle' => cases hresult
    | error r' hle' =>
      obtain ⟨rfl, hcursor⟩ := EStateM.Result.error.inj hresult
      rw [Walk.cursor_inj hle hle' hcursor]

theorem Same.ends {least : Nat} {p : Parser α} {out : EStateM.Result Walk.Stop Walk α}
    (h : Same tokens out (p (w.cursor tokens))) (hw : w.pos ≤ tokens.body.length)
    (hlocal : Parser.Local least p) (hnarrows : Parser.Narrows p) :
    Walk.Ends tokens.entries w least out := by
  have hleft := hnarrows (w.cursor tokens)
  generalize hresult : p (w.cursor tokens) = result at h hleft
  have hlength := tokens.length_entries
  cases h with
  | ok a hle =>
    have hless := (hlocal _).length_le hresult
    rw [Walk.length_cursor, Walk.length_cursor] at hless
    exact .ok a (by omega) (by omega)
  | error r hle =>
    have hless := hleft.length_le
    rw [Walk.length_cursor, Walk.length_cursor] at hless
    exact .rejected r (by omega) (by omega)

/-- Nothing is called any more. -/
def noCalls : Calls := fun _ _ w => .error (.outside w.pos) w

/-- Every call mirrors its rule, with depth enough and whatever stands behind the end. -/
theorem descend_same (call : Call α) (bottom : Calls) {read : List Entry} {depth bound : Nat}
    (hread : tokens.entries <+: read) (hw : w.pos ≤ tokens.body.length)
    (hdepth : 12 * tokens.entries.length ≤ depth) (hbound : tokens.entries.length ≤ bound) :
    Same tokens (descend read bottom depth α call w) (call.reader bound (w.cursor tokens)) := by
  obtain ⟨more, rfl⟩ := hread
  have hlength := tokens.length_entries
  have hrank := call.rank_le
  exact Covered.descend tokens more bottom depth call tokens.entries.length bound (by omega) hbound
    w hw (by omega)

theorem Walker.step_eq {read : List Entry} (hread : tokens.entries <+: read)
    (hw : w.pos ≤ tokens.body.length) :
    step read w = .ok () { w with pos := min (w.pos + 1) (tokens.entries.length - 1) } := by
  obtain ⟨more, rfl⟩ := hread
  unfold step
  rw [bind_of_ok (look_eq hw), tokens.length_entries, Nat.add_sub_cancel]
  have hlength := Walk.length_cursor tokens w
  cases hrest : (w.cursor tokens).rest with
  | nil =>
    rw [hrest, List.length_nil] at hlength
    have hpos : tokens.body.length = w.pos := by omega
    rw [Cursor.entry, hrest, Nat.min_eq_right (by omega), hpos]
    rfl
  | cons t ts =>
    rw [hrest, List.length_cons] at hlength
    rw [Cursor.entry, hrest, Nat.min_eq_left (by omega)]
    rfl

/-- A program that is read has taken every token. -/
theorem Same.program {out : EStateM.Result Walk.Stop Walk Program}
    (h : Same tokens out tokens.readProgram) :
    (∃ p w, out = .ok p w ∧ w.pos + 1 = tokens.entries.length ∧
      Program.ofTokens tokens = .ok p) ∨
    ∃ r w, out = .error (.rejected r) w ∧ Program.ofTokens tokens = .error r := by
  generalize hread : tokens.readProgram = result at h
  unfold Program.ofTokens
  rw [hread]
  cases h with
  | @ok w p hle =>
    have hlt : (Cursor.ofTokens tokens).rest.length < tokens.bound := Nat.lt_succ_self _
    rw [Tokens.readProgram] at hread
    have hrest := congrArg List.length (Parser.rest_of_program hlt hread)
    rw [Walk.length_cursor, List.length_nil] at hrest
    refine .inl ⟨p, w, rfl, ?_, rfl⟩
    rw [tokens.length_entries]
    omega
  | @error w r hle => exact .inr ⟨r, w, rfl, rfl⟩

/-- The call for a program finds what the tokens up to the end hold. -/
theorem descend_program (bottom : Calls) {read : List Entry} {depth : Nat}
    (hread : tokens.entries <+: read) (hdepth : 12 * tokens.entries.length ≤ depth) :
    (∃ p w, descend read bottom depth _ .program ⟨0, []⟩ = .ok p w ∧
      w.pos + 1 = tokens.entries.length ∧ Program.ofTokens tokens = .ok p) ∨
    ∃ r w, descend read bottom depth _ .program ⟨0, []⟩ = .error (.rejected r) w ∧
      Program.ofTokens tokens = .error r := by
  have hsame := descend_same (w := ⟨0, []⟩) Call.program bottom hread (Nat.zero_le _) hdepth
    (Nat.le_refl _)
  rw [tokens.length_entries] at hsame
  exact Same.program hsame

theorem descend_rejected {r : Rejection} (h : Program.ofTokens tokens = .error r) (bottom : Calls)
    {read : List Entry} {depth : Nat} (hread : tokens.entries <+: read)
    (hdepth : 12 * tokens.entries.length ≤ depth) :
    ∃ w, descend read bottom depth _ .program ⟨0, []⟩ = .error (.rejected r) w := by
  rcases descend_program bottom hread hdepth with ⟨p, w, -, -, hok⟩ | ⟨r', w, hrun, herror⟩
  · cases h.symm.trans hok
  · cases h.symm.trans herror
    exact ⟨w, hrun⟩

end

/-- Nothing behind the first end is read: of a list that has one, the program is that of the
tokens before it, and so is the rejection. -/
theorem program_of_first_end {entries : List Entry} {place : Place}
    (h : Entry.ending place ∈ entries) :
    ∃ tokens : Tokens, tokens.entries <+: entries ∧
      ∀ bottom depth, 12 * tokens.entries.length ≤ depth →
        (∃ p w, descend entries bottom depth _ .program ⟨0, []⟩ = .ok p w ∧
          w.pos + 1 = tokens.entries.length ∧ Program.ofTokens tokens = .ok p) ∨
        ∃ r w, descend entries bottom depth _ .program ⟨0, []⟩ = .error (.rejected r) w ∧
          Program.ofTokens tokens = .error r := by
  obtain ⟨tokens, hread⟩ := Entry.exists_tokens_of_ending h
  exact ⟨tokens, hread, fun bottom depth => descend_program bottom hread⟩

/-- On a list of entries that is closed by its end, a step moves on by one entry and stays
on the end.  Every call, from wherever it starts, ends in one way that no call deeper than
twelve times the length has a part in: with no index looked at outside the list, on an entry
not behind the first, and, where it succeeds, past as many entries as it needs, which is one
or more for a statement, an expression and each level of operators.  So the call for a
program finds a program and stands on the end, or is rejected.  All calls do on the entries
what the rules do on the tokens.  All this is so on every list that starts with the closed
one, and what follows the end there has no part in it. -/
theorem calls_end_in_bounds {entries : List Entry} (h : Entry.Closed entries) :
    ∃ tokens : Tokens, tokens.entries = entries ∧
    (∀ read, entries <+: read → ∀ w : Walk, w.pos < entries.length →
      Walker.step read w = .ok () { w with pos := min (w.pos + 1) (entries.length - 1) }) ∧
    (∀ (α : Type) (call : Call α) (w : Walk), w.pos < entries.length →
      ∃ outcome, Walk.Ends entries w call.least outcome ∧
        (∀ read, entries <+: read → ∀ bottom depth, 12 * entries.length ≤ depth →
          descend read bottom depth α call w = outcome) ∧
        ∀ bound, entries.length ≤ bound →
          Same tokens outcome (call.reader bound (w.cursor tokens))) ∧
    ∀ read, entries <+: read → ∀ bottom depth, 12 * entries.length ≤ depth →
      (∃ p w, descend read bottom depth _ .program ⟨0, []⟩ = .ok p w ∧
        w.pos + 1 = entries.length ∧ Program.ofTokens tokens = .ok p) ∨
      ∃ r w, descend read bottom depth _ .program ⟨0, []⟩ = .error (.rejected r) w ∧
        Program.ofTokens tokens = .error r := by
  obtain ⟨tokens, rfl⟩ := h.exists_tokens
  have hlength := tokens.length_entries
  refine ⟨tokens, rfl, fun read hread w hw => Walker.step_eq hread (by omega),
    fun α call w hw => ?_, fun read hread bottom depth => descend_program bottom hread⟩
  have hle : w.pos ≤ tokens.body.length := by omega
  have hself : ∀ bound, tokens.entries.length ≤ bound →
      Same tokens (descend tokens.entries noCalls (12 * tokens.entries.length) α call w)
        (call.reader bound (w.cursor tokens)) := fun bound hbound =>
    descend_same call noCalls (List.prefix_refl _) hle (Nat.le_refl _) hbound
  have hsame := hself _ (Nat.le_refl _)
  refine ⟨_, hsame.ends hle (call.reader_local _) (call.reader_narrows _),
    fun read hread bottom depth hdepth => ?_, hself⟩
  exact (descend_same call bottom hread hle hdepth (Nat.le_refl _)).unique hsame

/-- The tokens of `x=-(1`. -/
def openParen : Tokens :=
  ⟨[⟨.name, utf8 "x", ⟨0, 1, 1⟩⟩, ⟨.assign, utf8 "=", ⟨1, 1, 2⟩⟩, ⟨.minus, utf8 "-", ⟨2, 1, 3⟩⟩,
    ⟨.leftParen, utf8 "(", ⟨3, 1, 4⟩⟩, ⟨.number, utf8 "1", ⟨4, 1, 5⟩⟩], ⟨5, 1, 6⟩⟩

/-- The tokens of `);`, which come too late. -/
def closeParen : Tokens :=
  ⟨[⟨.rightParen, utf8 ")", ⟨5, 1, 6⟩⟩, ⟨.semicolon, utf8 ";", ⟨6, 1, 7⟩⟩], ⟨7, 1, 8⟩⟩

def openParenRejection : Rejection :=
  ⟨⟨5, 1, 6⟩, Token.endText, .expected [.kind .rightParen],
    [.program, .stmt, .expr, .assign, .assign, .equality, .relational, .add, .mul, .unary,
      .primary]⟩

/-- At the end of `x=-(1` a step stays there, an expression from the `1` on ends past it or is
rejected, and the program is rejected, also where `);` and another end follow. -/
theorem openParen_ends :
    Entry.Closed openParen.entries ∧
      Walker.step openParen.entries ⟨5, []⟩ = .ok () ⟨5, []⟩ ∧
      (∃ outcome, Walk.Ends openParen.entries ⟨4, []⟩ 1 outcome ∧
        ∀ bottom, descend openParen.entries bottom 72 _ .expression ⟨4, []⟩ = outcome) ∧
      (∀ bottom, ∃ w, descend openParen.entries bottom 72 _ .program ⟨0, []⟩ =
        .error (.rejected openParenRejection) w) ∧
      ∀ bottom, ∃ w, descend (openParen.entries ++ closeParen.entries) bottom 72 _ .program
        ⟨0, []⟩ = .error (.rejected openParenRejection) w := by
  have hclosed : Entry.Closed openParen.entries := openParen.closed_entries
  obtain ⟨tokens, htokens, hstep, hcalls, hprogram⟩ := calls_end_in_bounds hclosed
  obtain rfl := Tokens.entries_injective htokens
  obtain ⟨outcome, hends, hdescend, -⟩ := hcalls _ .expression ⟨4, []⟩ (by decide)
  have hofTokens : Program.ofTokens openParen = .error openParenRejection := by cbv
  have hrejected : ∀ read, openParen.entries <+: read → ∀ bottom, ∃ w,
      descend read bottom 72 _ .program ⟨0, []⟩ = .error (.rejected openParenRejection) w := by
    intro read hread bottom
    rcases hprogram read hread bottom 72 (by decide) with ⟨p, w, -, -, hok⟩ | ⟨r, w, hrun, herror⟩
    · cases hofTokens.symm.trans hok
    · cases hofTokens.symm.trans herror
      exact ⟨w, hrun⟩
  have hself := List.prefix_refl openParen.entries
  exact ⟨hclosed, hstep _ hself ⟨5, []⟩ (by decide),
    ⟨outcome, hends, fun bottom => hdescend _ hself bottom 72 (by decide)⟩,
    hrejected _ hself, hrejected _ (List.prefix_append _ _)⟩

end WordC
