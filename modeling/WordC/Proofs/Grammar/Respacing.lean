import Mathlib
import WordC.Proofs.Grammar.Concatenation
/-!
The spacing of a source does not matter.

A blank ends every token, and no comment starts with the last byte of a token and a blank.
So the tokens of a source can be written with any separators before, between and after
them, as long as each one starts with a blank and ends its comments.  What is scanned then
looks the same, and what looks the same is read as the same program or not at all.
-/

namespace WordC
namespace Token

/-! ## Separators -/

/-- Blanks, closed comments, and comments to the end of a line with their newline. -/
inductive Filler : Text → Prop where
  | nil : Filler []
  | blank {b : UInt8} {gap : Text} : b ∈ Byte.blanks → Filler gap → Filler (b :: gap)
  | lineComment {body gap : Text} : Byte.newline ∉ body → Filler gap →
      Filler ([Byte.slash, Byte.slash] ++ body ++ Byte.newline :: gap)
  | blockComment {body gap : Text} : ¬ closing <:+: body → Filler gap →
      Filler ([Byte.slash, Byte.star] ++ body ++ closing ++ gap)

/-- A blank and a filler. -/
inductive Separator : Text → Prop where
  | mk {b : UInt8} {gap : Text} : b ∈ Byte.blanks → Filler gap → Separator (b :: gap)

/-- A filler is complete in itself, so that anything may follow. -/
theorem Filler.spacing {gap : Text} (h : Filler gap) (rest : Text) : Spacing gap rest := by
  induction h with
  | nil => exact .nil
  | blank hb _ ih => exact .blank hb ih
  | lineComment hbody _ ih =>
    refine .lineComment hbody ?_ (.blank (by decide) ih)
    rintro b ⟨⟩
    rfl
  | blockComment hbody _ ih => exact .blockComment hbody ih

theorem Separator.spacing {sep : Text} (h : Separator sep) (rest : Text) : Spacing sep rest := by
  cases h with
  | mk hb hgap => exact .blank hb (hgap.spacing rest)

theorem Separator.exists_blank {sep : Text} (h : Separator sep) :
    ∃ b gap, sep = b :: gap ∧ Byte.isBlank b = true := by
  cases h with
  | mk hb _ => exact ⟨_, _, rfl, Byte.isBlank_iff.2 hb⟩

/-- The contents of tokens with a separator before, between and after them. -/
def spread (seps : Nat → Text) : List Token → Text
  | [] => seps 0
  | t :: ts => seps 0 ++ t.content ++ spread (fun i => seps (i + 1)) ts

theorem exists_blank_spread {seps : Nat → Text} (h : ∀ i, Separator (seps i)) (ts : List Token) :
    ∃ b more, spread seps ts = b :: more ∧ Byte.isBlank b = true := by
  obtain ⟨b, gap, hfirst, hb⟩ := (h 0).exists_blank
  cases ts with
  | nil => exact ⟨b, gap, hfirst, hb⟩
  | cons t ts =>
    refine ⟨b, gap ++ t.content ++ spread (fun i => seps (i + 1)) ts, ?_, hb⟩
    rw [spread, hfirst]
    rfl

/-! ## Tokens in front of a separator -/

/-- The longest token somewhere is also the longest one in front of a blank. -/
theorem Longest.before_blank {kind : Kind} {content rest : Text} (h : Longest kind content rest)
    {b : UInt8} (hb : Byte.isBlank b = true) (more : Text) :
    Longest kind content (b :: more) where
  spelled := h.spelled
  noComment hopens := by
    have hslash : b ∉ [Byte.slash, Byte.slash] := blank_not_mem hb rfl
    have hstar : b ∉ [Byte.slash, Byte.star] := blank_not_mem hb rfl
    refine h.noComment (hopens.imp ?_ ?_)
    · exact fun hline => (isPrefix_of_not_mem hslash hline).trans (List.prefix_append content rest)
    · exact fun hblock => (isPrefix_of_not_mem hstar hblock).trans (List.prefix_append content rest)
  longest k other hother hstarts := by
    have hshort := isPrefix_of_not_mem (hother.blank_not_mem hb) hstarts
    exact hshort.length_le

/-- Spread tokens are cut as they were. -/
theorem lexes_spread {ts : List Token} (hts : ∀ t ∈ ts, ∃ rest, Longest t.kind t.content rest)
    {seps : Nat → Text} (hseps : ∀ i, Separator (seps i)) (before : Text) :
    ∃ ts', Lexes before (spread seps ts) ts' (seps ts.length) ∧
      ts'.map Token.mark = ts.map Token.mark := by
  induction ts generalizing seps before with
  | nil => exact ⟨[], .nil, rfl⟩
  | cons t ts ih =>
    obtain ⟨⟨rest, hlongest⟩, hothers⟩ := List.forall_mem_cons.1 hts
    have hrest : ∀ i, Separator (seps (i + 1)) := fun i => hseps (i + 1)
    obtain ⟨ts', hlexes, hmarks⟩ := ih hothers hrest (before ++ seps 0 ++ t.content)
    obtain ⟨b, more, hspread, hb⟩ := exists_blank_spread hrest ts
    have hfirst : Longest t.kind t.content (spread (fun i => seps (i + 1)) ts) := by
      rw [hspread]
      exact hlongest.before_blank hb more
    refine ⟨_, .cons ((hseps 0).spacing _) hfirst hlexes, ?_⟩
    rw [List.map_cons, List.map_cons, hmarks]
    rfl

theorem scan_spread {source : Text} {tokens : Tokens} (h : scan source = .ok tokens)
    {seps : Nat → Text} (hseps : ∀ i, Separator (seps i)) :
    ∃ other, scan (spread seps tokens.body) = .ok other ∧
      other.body.map Token.mark = tokens.body.map Token.mark := by
  obtain ⟨gap, hlexes, -, -⟩ := scan_eq_ok_iff.1 h
  have hlongest : ∀ t ∈ tokens.body, ∃ rest, Longest t.kind t.content rest := by
    intro t ht
    obtain ⟨-, post, -, -, hpost⟩ := hlexes.of_mem ht
    exact ⟨post, hpost⟩
  obtain ⟨ts, hspread, hmarks⟩ := lexes_spread hlongest hseps []
  exact ⟨_, scan_of_lexes hspread ((hseps _).spacing []), hmarks⟩

end Token

/-! ## Programs -/

theorem ofTokens_congr {tokens other : Tokens}
    (hmarks : other.body.map Token.mark = tokens.body.map Token.mark) (p : Program) :
    Program.ofTokens other = .ok p ↔ Program.ofTokens tokens = .ok p :=
  ⟨ofTokens_of_marks hmarks.symm, ofTokens_of_marks hmarks⟩

open Token

/-- Whatever separators are written before, between and after the tokens of a source, they
are scanned as tokens of the same kinds and contents, and read as the same program if they
are read at all. -/
theorem parse_respaced {source : Text} {tokens : Tokens} (h : scan source = .ok tokens)
    {seps : Nat → Text} (hseps : ∀ i, Separator (seps i)) :
    (∃ other, scan (spread seps tokens.body) = .ok other ∧
      other.body.map (fun t => (t.kind, t.content)) =
        tokens.body.map fun t => (t.kind, t.content)) ∧
    ∀ p, Program.parse (spread seps tokens.body) = .ok p ↔ Program.parse source = .ok p := by
  obtain ⟨other, hscan, hmarks⟩ := scan_spread h hseps
  refine ⟨⟨other, hscan, hmarks⟩, fun p => ?_⟩
  rw [Program.parse, Program.parse, hscan, h]
  exact ofTokens_congr hmarks p

/-- Comments that hold other tokens. -/
def mixedSep (i : Nat) : Text := if i % 2 = 0 then utf8 " /*=*/" else utf8 "\n//*;\n"

theorem separator_mixedSep (i : Nat) : Separator (mixedSep i) := by
  have hblock : Separator (utf8 " /*=*/") :=
    .mk (by decide) (@Filler.blockComment [Byte.equal] [] (by decide) .nil)
  have hline : Separator (utf8 "\n//*;\n") :=
    .mk (by decide) (@Filler.lineComment [Byte.star, Byte.semicolon] [] (by decide) .nil)
  rw [mixedSep]
  split
  · exact hblock
  · exact hline

/-- The slash in front of a comment, and the sign of equality in front of one, stay what they
were. -/
theorem parse_respaced_quotient :
    ∃ tokens, scan (utf8 "a=8/b<=c;") = .ok tokens ∧ (∀ i, Separator (mixedSep i)) ∧
      Program.parse (spread mixedSep tokens.body) =
        .ok [.binary .assign (.ident (utf8 "a")) (.binary .lessEqual
          (.binary .div (.num 8) (.ident (utf8 "b"))) (.ident (utf8 "c")))] := by
  have hparse : Program.parse (utf8 "a=8/b<=c;") =
      .ok [.binary .assign (.ident (utf8 "a")) (.binary .lessEqual
        (.binary .div (.num 8) (.ident (utf8 "b"))) (.ident (utf8 "c")))] := by cbv
  obtain ⟨tokens, hscan, -⟩ := exists_tokens_of_parse hparse
  exact ⟨tokens, hscan, separator_mixedSep,
    ((parse_respaced hscan separator_mixedSep).2 _).2 hparse⟩

end WordC
