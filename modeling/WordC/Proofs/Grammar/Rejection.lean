import WordC.Proofs.Grammar.Progress
import WordC.Proofs.Grammar.Viability
/-!
Where a program is rejected.

A rejection that is not about the target of an assignment names the first token that no
program can have there.  Whatever follows that token, the rejection is the same, also where
more stands behind the end; without it, and with any token of a kind that is asked for in its
place, the tokens in front of it go on to a program.
-/

namespace WordC

open Grammar

/-- Up to the token `k`, or the end if it is reached, the tokens look the same. -/
def Tokens.SameUpTo (tokens other : Tokens) (k : Nat) : Prop :=
  ∀ j ≤ k, other.body[j]?.map Token.mark = tokens.body[j]?.map Token.mark

theorem Tokens.place_drop (tokens : Tokens) (k : Nat) (trail : List Production) :
    Cursor.place ⟨tokens.body.drop k, tokens.ending, trail⟩ = tokens.placeAt k := by
  have hhead : (tokens.body.drop k).head? = tokens.body[k]? := List.head?_drop
  rw [Cursor.place, Tokens.placeAt, ← hhead]
  cases tokens.body.drop k with
  | nil => rfl
  | cons t ts => rfl

theorem Tokens.SameUpTo.alike {tokens other : Tokens} {pre rest : List Token}
    (hbody : tokens.body = pre ++ rest) (h : tokens.SameUpTo other pre.length) :
    Parser.Alike pre rest (other.body.take pre.length) (other.body.drop pre.length) := by
  refine ⟨List.ext_getElem? fun j => ?_, ?_⟩
  · rw [List.getElem?_map, List.getElem?_map, List.getElem?_take]
    split
    · next hj =>
      rw [h j (Nat.le_of_lt hj), hbody, List.getElem?_append_left hj]
    · next hj => rw [List.getElem?_eq_none (Nat.le_of_not_lt hj)]
  · have hhead := h pre.length (Nat.le_refl _)
    rw [hbody, List.getElem?_append_right (Nat.le_refl _), Nat.sub_self] at hhead
    rw [Parser.SameHead, List.head?_drop, hhead, List.head?_eq_getElem?]

/-- A program is read in the same way with every greater bound. -/
theorem readProgram_eq_of_le {tokens : Tokens} {bound : Nat} (h : tokens.bound ≤ bound) :
    tokens.readProgram = Parser.program bound (.ofTokens tokens) :=
  Parser.program_agrees (Nat.le_refl _) h (.ofTokens tokens) (Nat.lt_succ_self _)

theorem exists_of_ofTokens_error {tokens : Tokens} {r : Rejection}
    (h : Program.ofTokens tokens = .error r) : ∃ d, tokens.readProgram = .error r d := by
  unfold Program.ofTokens at h
  split at h
  · cases h
  · next r' d hread =>
    cases h
    exact ⟨d, hread⟩

/-- What follows the token at which a program is rejected does not matter. -/
theorem rejected_of_sameUpTo {tokens other : Tokens} {r : Rejection} {d : Cursor} {pre : List Token}
    (hread : tokens.readProgram = .error r d) (htarget : ¬ r.OffTarget)
    (hbody : tokens.body = pre ++ d.rest) (hsame : tokens.SameUpTo other pre.length) :
    Program.ofTokens other = .error { r with place := other.placeAt pre.length } := by
  -- both are read with a bound that is great enough for both
  rw [readProgram_eq_of_le (Nat.le_max_left tokens.bound other.bound)] at hread
  cases Parser.program_local (max tokens.bound other.bound) tokens.body with
  | reads pre' rest p hts _ hreads =>
    have hrun := hreads pre' rest (.refl pre' rest) tokens.ending []
    rw [← hts] at hrun
    cases hread.symm.trans hrun
  | misses hmisses =>
    obtain ⟨r', d', hrun, hoff⟩ := hmisses tokens.ending []
    cases hread.symm.trans hrun
    exact absurd hoff htarget
  | refuses pre' rest near cause inner hts hrefuses =>
    have hrun := hrefuses pre' rest (.refl pre' rest) tokens.ending []
    rw [← hts] at hrun
    cases hread.symm.trans hrun
    obtain rfl : pre = pre' := List.append_cancel_right (hbody.symm.trans hts)
    have hrun' := hrefuses _ _ (hsame.alike hts) other.ending []
    rw [List.take_append_drop, other.place_drop] at hrun'
    have hother := (readProgram_eq_of_le (Nat.le_max_right tokens.bound other.bound)).trans hrun'
    rw [Program.ofTokens, hother]

/-- A syntax error is reported at the first token that cannot stand where it does. -/
theorem rejected_at_first_impossible {source : Text} {tokens : Tokens} {r : Rejection}
    (hscan : Token.scan source = .ok tokens) (h : Program.ofTokens tokens = .error r)
    (htarget : ∀ target, r.cause ≠ .invalidTarget target) :
    ∃ k, k ≤ tokens.body.length ∧ tokens.placeAt k = r.place ∧
      (∀ j ≤ tokens.body.length, tokens.placeAt j = r.place → j = k) ∧
      (∀ other, tokens.SameUpTo other k →
        Program.ofTokens other = .error { r with place := other.placeAt k } ∧
        ∀ read, other.entries <+: read → ∀ bottom depth, 12 * other.entries.length ≤ depth →
          ∃ w, descend read bottom depth _ .program ⟨0, []⟩ =
            .error (.rejected { r with place := other.placeAt k }) w) ∧
      (∃ more p, Program.ofTokens ⟨tokens.body.take k ++ more, tokens.ending⟩ = .ok p) ∧
      ∀ kind, .kind kind ∈ r.cause.wanted → ∃ t more p, t.kind = kind ∧ t.Proper ∧
        Program.ofTokens ⟨tokens.body.take k ++ t :: more, tokens.ending⟩ = .ok p := by
  have hoff : ¬ r.OffTarget := fun ⟨target, heq⟩ => htarget target heq
  obtain ⟨d, hread⟩ := exists_of_ofTokens_error h
  obtain ⟨pre, hbody, hinvites⟩ :=
    Parser.program_viable tokens.bound (.ofTokens tokens) (Token.proper_of_scan hscan) hread hoff
  replace hbody : tokens.body = pre ++ d.rest := hbody
  have hlength : pre.length ≤ tokens.body.length := by
    rw [hbody, List.length_append]
    exact Nat.le_add_right _ _
  have hsame := fun other (hother : tokens.SameUpTo other pre.length) =>
    rejected_of_sameUpTo hread hoff hbody hother
  have hplace : tokens.placeAt pre.length = r.place :=
    (congrArg Rejection.place (Except.error.inj (h.symm.trans (hsame tokens fun _ _ => rfl)))).symm
  have hgoesOn : ∀ kind, .kind kind ∈ r.cause.wanted → ∃ t more p, t.kind = kind ∧ t.Proper ∧
      Program.ofTokens ⟨pre ++ t :: more, tokens.ending⟩ = .ok p := by
    intro kind hkind
    obtain ⟨-, t, ht, hproper, more, p, hmore⟩ := hinvites.every kind hkind
    refine ⟨t, more, p, ht, hproper, ofTokens_of_spells ?_⟩
    have hspells := hmore [] (by simp [Next])
    rwa [List.append_nil, List.append_assoc] at hspells
  have htake : tokens.body.take pre.length = pre := by rw [hbody, List.take_left]
  refine ⟨pre.length, hlength, hplace, fun j hj hjplace =>
    Token.placeAt_injective hscan hj hlength (hjplace.trans hplace.symm), fun other hother =>
    ⟨hsame other hother, fun read hread bottom depth =>
      descend_rejected (hsame other hother) bottom hread⟩, ?_, ?_⟩
  · obtain ⟨kind, hkind⟩ := hinvites.one
    obtain ⟨t, more, p, -, -, hp⟩ := hgoesOn kind hkind
    exact ⟨t :: more, p, by rwa [htake]⟩
  · rwa [htake]

/-- An `else` after a statement that has not ended. -/
def strayElse : Tokens where
  body := [⟨.ifWord, utf8 "if", ⟨0, 1, 1⟩⟩, ⟨.leftParen, utf8 "(", ⟨2, 1, 3⟩⟩,
    ⟨.number, utf8 "1", ⟨3, 1, 4⟩⟩, ⟨.rightParen, utf8 ")", ⟨4, 1, 5⟩⟩,
    ⟨.name, utf8 "a", ⟨5, 1, 6⟩⟩, ⟨.elseWord, utf8 "else", ⟨7, 1, 8⟩⟩,
    ⟨.name, utf8 "b", ⟨12, 1, 13⟩⟩, ⟨.semicolon, utf8 ";", ⟨13, 1, 14⟩⟩]
  ending := ⟨14, 1, 15⟩

def strayElseRejection : Rejection where
  place := ⟨7, 1, 8⟩
  near := utf8 "else"
  cause := .expected [.kind .semicolon]
  trail := [.program, .stmt, .stmt]

theorem strayElse_rejected :
    Token.scan (utf8 "if(1)a else b;") = .ok strayElse ∧
      Program.ofTokens strayElse = .error strayElseRejection ∧
      (∀ other, strayElse.SameUpTo other 5 → Program.ofTokens other =
        .error { strayElseRejection with place := other.placeAt 5 }) ∧
      ∃ t more p, t.kind = .semicolon ∧ t.Proper ∧
        Program.ofTokens ⟨strayElse.body.take 5 ++ t :: more, strayElse.ending⟩ = .ok p := by
  have hscan : Token.scan (utf8 "if(1)a else b;") = .ok strayElse := by cbv
  have hread : Program.ofTokens strayElse = .error strayElseRejection := by cbv
  obtain ⟨k, -, -, hunique, hsame, -, hwanted⟩ := rejected_at_first_impossible hscan hread (by
    intro target heq
    cases heq)
  obtain rfl : 5 = k := hunique 5 (by decide) rfl
  exact ⟨hscan, hread, fun other hother => (hsame other hother).1,
    hwanted .semicolon List.mem_cons_self⟩

end WordC
