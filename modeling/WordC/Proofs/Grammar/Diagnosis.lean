import Mathlib
import WordC.Proofs.Grammar.Rejection
import WordC.Proofs.Grammar.Rules
import WordC.Proofs.Scan.Lines
import WordC.Proofs.Scan.Munch
/-!
Where a rejection points.

Every rejection stands at a place that was counted from the source: at the next token, at
the token where the target of an assignment starts, at the end, or where the scanner got
stuck.  So its line and column are those of its offset, and it can be shown under the
line that it names.
-/

namespace WordC

/-! ## Rejections stand at tokens -/

/-- The cursor stands somewhere in the tokens. -/
structure Cursor.Inside (tokens : Tokens) (c : Cursor) : Prop where
  rest : c.rest <:+ tokens.body
  ending : c.ending = tokens.ending

/-- The rejection stands at a token, or at the end. -/
def Rejection.At (tokens : Tokens) (r : Rejection) : Prop :=
  ∃ k ≤ tokens.body.length, r.place = tokens.placeAt k

theorem Cursor.Inside.exists_place {tokens : Tokens} {c : Cursor} (h : c.Inside tokens) :
    ∃ k ≤ tokens.body.length, c.place = tokens.placeAt k := by
  obtain ⟨rest, ending, trail⟩ := c
  obtain rfl : ending = tokens.ending := h.ending
  refine ⟨tokens.body.length - rest.length, Nat.sub_le _ _, ?_⟩
  rw [← tokens.place_drop _ trail, ← List.suffix_iff_eq_drop.1 h.rest]

namespace Parser

/-- The reader stays in the tokens, and fails at one of them or at the end. -/
def Confined {α : Type} (tokens : Tokens) (p : Parser α) : Prop :=
  ∀ c : Cursor, c.Inside tokens →
    match p c with
    | .ok _ d => d.Inside tokens
    | .error r _ => r.At tokens

/-- No step leaves the tokens. -/
theorem Built.confined {α : Type} {tokens : Tokens} {p : Parser α}
    (h : Built (Cursor.Inside tokens) p) : Confined tokens p := by
  induction h with
  | pure a => exact fun _ hc => hc
  | @bind _ _ p f _ _ hp hf =>
    intro c hc
    have hpc := hp c hc
    cases hrun : p c with
    | ok a d =>
      rw [hrun] at hpc
      rw [bind_of_ok hrun]
      exact hf a d hpc
    | error r d =>
      rw [hrun] at hpc
      rw [bind_of_error hrun]
      exact hpc
  | get _ hf => exact fun c hc => hf c hc c hc
  | fail cause => exact fun _ hc => hc.exists_place
  | failAt cause hspot => exact fun _ _ => hspot.exists_place
  | @within _ p production _ hp =>
    intro c hc
    have hinner := hp { c with trail := production :: c.trail } ⟨hc.rest, hc.ending⟩
    rw [Parser.within]
    cases hrun : p { c with trail := production :: c.trail } with
    | ok a d =>
      rw [hrun] at hinner
      exact ⟨hinner.rest, hinner.ending⟩
    | error r d =>
      rw [hrun] at hinner
      exact hinner
  | advance => exact fun c hc => ⟨(List.tail_suffix c.rest).trans hc.rest, hc.ending⟩

end Parser

/-- Tokens are rejected at one of them or at the end. -/
theorem at_of_ofTokens {tokens : Tokens} {r : Rejection} (h : Program.ofTokens tokens = .error r) :
    r.At tokens := by
  obtain ⟨d, hread⟩ := exists_of_ofTokens_error h
  have hconfined := (Parser.Built.program tokens.bound).confined (.ofTokens tokens)
    ⟨List.suffix_rfl, rfl⟩
  rw [Tokens.readProgram] at hread
  rw [hread] at hconfined
  exact hconfined

/-- A source is rejected at a place that is counted from the text in front of it. -/
theorem exists_behind_of_parse {source : Text} {r : Rejection}
    (h : Program.parse source = .error r) :
    ∃ before rest, source = before ++ rest ∧ r.place = .behind before := by
  unfold Program.parse at h
  split at h
  · next r' hscan =>
    cases h
    obtain ⟨-, -, before, rest, hsource, hplace, -⟩ := Token.stuck_of_scan hscan
    exact ⟨before, rest, hsource, hplace⟩
  · next tokens hscan =>
    obtain ⟨k, -, hplace⟩ := at_of_ofTokens h
    obtain ⟨gap, hlexes, -, hending⟩ := Token.scan_eq_ok_iff.1 hscan
    rw [Tokens.placeAt] at hplace
    split at hplace
    · next t ht =>
      obtain ⟨before, rest, hsource, hbefore, -⟩ := hlexes.of_mem (List.mem_of_getElem? ht)
      exact ⟨before, _, hsource, hplace.trans hbefore⟩
    · exact ⟨source, [], (List.append_nil _).symm, hplace.trans hending⟩

/-! ## Rejections are shown under their line -/

namespace Rejection

variable {r : Rejection}

theorem margin_diagnostic :
    r.diagnostic.margin = Text.ofNat r.place.line ++ utf8 " | " :=
  congrArg (· ++ utf8 " | ") (Text.ofInt_natCast r.place.line)

theorem sourceLine?_diagnostic {source above line below : Text}
    (h : source.IsLine r.place.line above line below) :
    r.diagnostic.sourceLine? source = some (line.dropRight Byte.carriageReturn) := by
  have hnumber := h.number
  have hline : ¬ (r.place.line : Int) < 1 := by omega
  have hindex : ((r.place.line : Int) - 1).toNat = r.place.line - 1 := by omega
  rw [Diagnostic.sourceLine?]
  show (if (r.place.line : Int) < 1 then none
    else (source.splitOn Byte.newline)[((r.place.line : Int) - 1).toNat]?.map
      (Text.dropRight Byte.carriageReturn)) = _
  rw [if_neg hline, hindex, h.getElem?_splitOn]
  rfl

theorem indent_diagnostic {k : Nat} (hk : r.diagnostic.margin.length + r.place.column = k + 1)
    (hshort : k < 2 ^ 63) : r.diagnostic.indent.toInt = k := by
  have hsum : (r.diagnostic.margin.length : Int) + r.diagnostic.column - 1 = k := by
    show (r.diagnostic.margin.length : Int) + (r.place.column : Int) - 1 = k
    omega
  rw [Diagnostic.indent, hsum, Int64.toInt_ofInt_of_le (by omega) (by omega)]

/-- The message behind a caret that stands `k` bytes from the left, under the line. -/
theorem show?_diagnostic {source above line below : Text} {k : Nat}
    (hline : source.IsLine r.place.line above line below)
    (hk : r.diagnostic.margin.length + r.place.column = k + 1) (hshort : k < 2 ^ 63) :
    r.diagnostic.show? source =
      some (r.diagnostic.margin ++ line.dropRight Byte.carriageReturn ++ [Byte.newline] ++
        Text.spaces k ++ utf8 "^ " ++ r.diagnostic.message) := by
  have hindent := indent_diagnostic hk hshort
  have hedge : ¬ r.diagnostic.indent < 0 := by
    rw [Int64.lt_iff_toInt_lt, hindent]
    exact Int.not_lt.2 (Int.natCast_nonneg k)
  rw [Diagnostic.show?, sourceLine?_diagnostic hline]
  show (if r.diagnostic.indent < 0 then none else _) = _
  rw [if_neg hedge, hindent, Int.toNat_natCast]

end Rejection

/-- Where a rejected source is rejected, and how this is shown.  The offset lies in the source.
The line is counted by the newlines in front of it, and the column from the start of that
line.  The diagnostic is the line without the carriage returns at its end, and the message
behind a caret under the column.  The distance of the caret is a word, which is enough for
less than `2 ^ 63 - 4` bytes of source. -/
theorem rejection_shown_in_place {source : Text} {r : Rejection}
    (h : Program.parse source = .error r) :
    r.place.pos ≤ source.length ∧
      r.place.line = 1 + (source.take r.place.pos).count Byte.newline ∧
      1 ≤ r.place.line ∧ r.place.line ≤ (source.splitOn Byte.newline).length ∧
      ∃ above line below returns, source.IsLine r.place.line above line below ∧
        1 ≤ r.place.column ∧ above.length + (r.place.column - 1) = r.place.pos ∧
        r.place.pos ≤ above.length + line.length ∧
        line = line.dropRight Byte.carriageReturn ++
          List.replicate returns Byte.carriageReturn ∧
        (line.dropRight Byte.carriageReturn).getLast? ≠ some Byte.carriageReturn ∧
        (source.length + 4 < 2 ^ 63 → r.diagnostic.show? source =
          some (Text.ofNat r.place.line ++ utf8 " | " ++ line.dropRight Byte.carriageReturn ++
            [Byte.newline] ++
            Text.spaces ((Text.ofNat r.place.line ++ utf8 " | ").length + (r.place.column - 1)) ++
            utf8 "^ " ++ r.diagnostic.message)) := by
  obtain ⟨before, rest, rfl, hplace⟩ := exists_behind_of_parse h
  obtain ⟨above, line, below, hline, hcolumn, hpos⟩ := Text.exists_isLine before rest
  obtain ⟨returns, hreturns, hlast⟩ := Text.exists_dropRight Byte.carriageReturn line
  have hbehind : r.place.pos = before.length := congrArg Place.pos hplace
  rw [← hplace] at hline hcolumn
  have hfirst : 1 ≤ r.place.column := by
    rw [hplace]
    exact Nat.le_add_left 1 _
  have hnumber := hline.number
  refine ⟨?_, ?_, ?_, hline.number_le, above, line, below, returns, hline, hfirst, ?_, ?_,
    hreturns, hlast, fun hlength => ?_⟩
  · rw [hbehind, List.length_append]
    exact Nat.le_add_right _ _
  · rw [hbehind, List.take_left, hplace]
    rfl
  · omega
  · omega
  · rwa [hbehind]
  · -- a line number has no more digits than there are newlines in front of it and one
    have hdigits := Text.length_ofNat_le (show 0 < r.place.line by omega)
    have hnewlines : above.count Byte.newline ≤ above.length := List.count_le_length
    have hmargin : (Text.ofNat r.place.line ++ utf8 " | ").length =
        (Text.ofNat r.place.line).length + 3 := List.length_append
    rw [List.length_append] at hlength
    rw [← Rejection.margin_diagnostic] at hmargin ⊢
    exact Rejection.show?_diagnostic hline (by omega) (by omega)

/-- A semicolon where an operand is missing. -/
def missingOperand : Rejection where
  place := ⟨10, 2, 5⟩
  near := utf8 ";"
  cause := .expected Expectation.operand
  trail := [.program, .stmt, .expr, .assign, .assign, .equality, .relational, .add, .mul, .unary,
    .primary]

/-- The second of two lines that end in carriage returns. -/
theorem missingOperand_shown :
    Program.parse (utf8 "a=1;\r\nb=1+;\r\n") = .error missingOperand ∧
      missingOperand.diagnostic.show? (utf8 "a=1;\r\nb=1+;\r\n") =
        some (utf8 "2 | b=1+;\n        ^ " ++ missingOperand.diagnostic.message) := by
  have hparse : Program.parse (utf8 "a=1;\r\nb=1+;\r\n") = .error missingOperand := by cbv
  obtain ⟨-, -, -, -, above, line, below, returns, hline, -, -, -, -, -, hshow⟩ :=
    rejection_shown_in_place hparse
  have hpiece : ((utf8 "a=1;\r\nb=1+;\r\n").splitOn Byte.newline)[1]? =
      some (utf8 "b=1+;\r") := by decide
  obtain rfl : utf8 "b=1+;\r" = line :=
    Option.some.inj (hpiece.symm.trans hline.getElem?_splitOn)
  exact ⟨hparse, (hshow (by decide)).trans rfl⟩

end WordC
