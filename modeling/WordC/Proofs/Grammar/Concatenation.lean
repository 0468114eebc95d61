import Mathlib
import WordC.Proofs.Grammar.Viability
import WordC.Proofs.Printing
import WordC.Proofs.Scan.Munch
/-!
Two sources one below the other.

A newline ends whatever the first source ends with: no token goes on behind it, a comment
to the end of the line stops there, and a closed comment has ended before.  The tokens are
those of the first source and then those of the second, at later places.  The statements
are put one behind the other, since no statement starts with the `else` that could lengthen
the last one of the first source.
-/

namespace WordC
namespace Token

/-! ## Tokens of the first source -/

theorem not_isNamePart_of_isBlank {b : UInt8} (hb : Byte.isBlank b = true) :
    Byte.isNamePart b = false := by
  simp only [Byte.isBlank, Bool.or_eq_true, Bool.and_eq_true, decide_eq_true_eq,
    UInt8.le_iff_toNat_le, ← UInt8.toNat_inj, UInt8.reduceToNat] at hb
  simp only [Byte.isNamePart, Byte.isLetter, Byte.isUnderscore, Byte.underscore, Byte.isDigit,
    Bool.or_eq_false_iff, Bool.and_eq_false_iff, decide_eq_false_iff_not, UInt8.le_iff_toNat_le,
    ← UInt8.toNat_inj, UInt8.reduceToNat]
  omega

theorem blank_not_mem {b : UInt8} (hb : Byte.isBlank b = true) {run : Text}
    (hrun : run.all (!Byte.isBlank ·) = true) : b ∉ run := by
  intro hmem
  simpa [hb] using List.all_eq_true.1 hrun b hmem

/-- No token holds a blank. -/
theorem Lexeme.blank_not_mem {k : Kind} {content : Text} (h : Lexeme k content) {b : UInt8}
    (hb : Byte.isBlank b = true) : b ∉ content := by
  have outside : ∀ {run : Text}, run.all Byte.isNamePart = true → b ∉ run := by
    intro run hrun hmem
    have hpart := List.all_eq_true.1 hrun _ hmem
    exact absurd (hpart.symm.trans (not_isNamePart_of_isBlank hb)) (by decide)
  cases h with
  | number _ hall =>
    refine outside (List.all_eq_true.2 fun c hc => ?_)
    simp [Byte.isNamePart, List.all_eq_true.1 hall c hc]
  | name hword _ =>
    cases content with
    | nil => cases hword
    | cons c rest =>
      rw [Text.isSymbolName, Bool.and_eq_true] at hword
      refine outside ?_
      rw [Byte.isNameStart] at hword
      simp [Byte.isNamePart, hword.1, hword.2]
  | fixed hspelled =>
    obtain ⟨hnumber, hname, rfl⟩ := mem_spellings.1 hspelled
    have hvisible : k.text.all (!Byte.isBlank ·) = true := by
      cases k with
      | number => exact absurd rfl hnumber
      | name => exact absurd rfl hname
      | _ => rfl
    exact Token.blank_not_mem hb hvisible

/-- What does not hold a byte starts in front of it or not at all. -/
theorem isPrefix_of_not_mem {b : UInt8} {word text more : Text} (hword : b ∉ word)
    (h : word <+: text ++ b :: more) : word <+: text := by
  rcases List.prefix_or_prefix_of_prefix h (List.prefix_append text _) with hshort | hlong
  · exact hshort
  · obtain ⟨extra, rfl⟩ := hlong
    cases extra with
    | nil => simp
    | cons c extra =>
      have hc := (List.cons_prefix_cons.1 ((List.prefix_append_right_inj text).1 h)).1
      exact absurd (by simp [hc]) hword

theorem Longest.append_newline {kind : Kind} {content rest : Text} (h : Longest kind content rest)
    (more : Text) : Longest kind content (rest ++ Byte.newline :: more) where
  spelled := h.spelled
  noComment hopens := by
    rw [← List.append_assoc] at hopens
    refine h.noComment (hopens.imp ?_ ?_)
    · exact isPrefix_of_not_mem (by decide)
    · exact isPrefix_of_not_mem (by decide)
  longest k other hother hstarts := by
    rw [← List.append_assoc] at hstarts
    exact h.longest k other hother (isPrefix_of_not_mem (hother.blank_not_mem rfl) hstarts)

theorem Spacing.append {gap rest : Text} (h : Spacing gap rest) (hrest : rest ≠ [])
    (more : Text) : Spacing gap (rest ++ more) := by
  induction h with
  | nil => exact .nil
  | blank hb _ ih => exact .blank hb (ih hrest)
  | @lineComment body gap rest hbody hhead _ ih =>
    refine .lineComment hbody ?_ (ih hrest)
    have hne : gap ++ rest ≠ [] := List.append_ne_nil_of_right_ne_nil gap hrest
    rwa [← List.append_assoc, List.head?_append_of_ne_nil _ hne]
  | blockComment hbody _ ih => exact .blockComment hbody (ih hrest)

/-- Whatever a source ends with, a newline ends it too. -/
theorem Spacing.newline {gap rest : Text} (h : Spacing gap rest) (hrest : rest = [])
    (more : Text) : Spacing (gap ++ [Byte.newline]) more := by
  induction h with
  | nil => exact .blank (by decide) .nil
  | blank hb _ ih => exact .blank hb (ih hrest)
  | @lineComment body gap rest hbody hhead _ ih =>
    subst hrest
    rw [List.append_assoc]
    refine .lineComment hbody ?_ (ih rfl)
    cases gap with
    | nil => simp
    | cons b gap => exact hhead
  | blockComment hbody _ ih =>
    rw [List.append_assoc]
    exact .blockComment hbody (ih hrest)

theorem Lexes.append_newline {before text rest : Text} {ts : List Token}
    (h : Lexes before text ts rest) (more : Text) :
    Lexes before (text ++ Byte.newline :: more) ts (rest ++ Byte.newline :: more) := by
  induction h with
  | nil => exact .nil
  | @cons before gap content text rest kind ts hgap hlongest _ ih =>
    obtain ⟨b, tail, rfl⟩ := hlongest.spelled.exists_cons
    have hgap' := hgap.append (List.cons_ne_nil b _) (Byte.newline :: more)
    rw [List.append_assoc] at hgap' ⊢
    exact .cons hgap' (hlongest.append_newline more) ih

/-! ## Tokens of the second source -/

/-- The same text elsewhere has tokens that look the same. -/
theorem Lexes.move {before text rest : Text} {ts : List Token} (h : Lexes before text ts rest)
    (before' : Text) :
    ∃ ts', Lexes before' text ts' rest ∧ ts'.map Token.mark = ts.map Token.mark := by
  induction h generalizing before' with
  | nil => exact ⟨[], .nil, rfl⟩
  | @cons before gap content text rest kind ts hgap hlongest _ ih =>
    obtain ⟨ts', hothers, hmarks⟩ := ih (before' ++ gap ++ content)
    refine ⟨_, .cons hgap hlongest hothers, ?_⟩
    rw [List.map_cons, List.map_cons, hmarks]
    rfl

theorem scan_append_newline {source₁ source₂ : Text} {tokens₁ tokens₂ : Tokens}
    (h₁ : scan source₁ = .ok tokens₁) (h₂ : scan source₂ = .ok tokens₂) :
    ∃ tokens ts, scan (source₁ ++ Byte.newline :: source₂) = .ok tokens ∧
      tokens.body = tokens₁.body ++ ts ∧ ts.map Token.mark = tokens₂.body.map Token.mark := by
  obtain ⟨gap₁, hlexes₁, hgap₁, -⟩ := scan_eq_ok_iff.1 h₁
  obtain ⟨gap₂, hlexes₂, hgap₂, -⟩ := scan_eq_ok_iff.1 h₂
  obtain ⟨bound, before, hbound, -, hscan⟩ :=
    scanFrom_lexes (hlexes₁.append_newline source₂) (Nat.le_refl _)
  obtain ⟨bound, rfl⟩ : ∃ k, bound = k + 1 := by
    refine ⟨bound - 1, ?_⟩
    simp at hbound
    omega
  obtain ⟨ts, hlexes, hmarks⟩ := hlexes₂.move (before ++ (gap₁ ++ [Byte.newline]))
  have hbound₂ : source₂.length ≤ bound + 1 := by
    simp at hbound
    omega
  obtain ⟨bound', before', hbound', -, hscan'⟩ := scanFrom_lexes hlexes hbound₂
  have hsplit : gap₁ ++ Byte.newline :: source₂ = gap₁ ++ [Byte.newline] ++ source₂ := by simp
  rw [hsplit, scanFrom_spacing (hgap₁.newline rfl source₂), Place.after_behind, hscan',
    scanFrom_end hgap₂ hbound'] at hscan
  exact ⟨_, ts, hscan, by simp [preceded], hmarks⟩

end Token

/-! ## Statements of both -/

open Grammar

theorem Grammar.Stmts.append {ts mid rest : List Token} {ns ms : List Node} (h : Stmts ts ns mid)
    (h' : Stmts mid ms rest) : Stmts ts (ns ++ ms) rest := by
  induction ns generalizing ts with
  | nil =>
    cases h
    exact h'
  | cons n ns ih =>
    cases h with
    | cons hfirst hothers => exact .cons hfirst (ih hothers)

theorem exists_of_ofTokens_ok {tokens : Tokens} {p : Program}
    (h : Program.ofTokens tokens = .ok p) : ∃ d, tokens.readProgram = .ok p d := by
  unfold Program.ofTokens at h
  split at h
  · next q d hread =>
    cases h
    exact ⟨d, hread⟩
  · cases h

/-- Tokens that look the same are read as the same program. -/
theorem ofTokens_of_marks {tokens other : Tokens} {p : Program}
    (hmarks : other.body.map Token.mark = tokens.body.map Token.mark)
    (h : Program.ofTokens tokens = .ok p) : Program.ofTokens other = .ok p := by
  obtain ⟨d, hread⟩ := exists_of_ofTokens_ok h
  have hbound : other.bound = tokens.bound := by
    have hlength := congrArg List.length hmarks
    rw [List.length_map, List.length_map] at hlength
    rw [Tokens.bound, Tokens.bound, hlength]
  cases Parser.program_local tokens.bound tokens.body with
  | reads pre rest q hts _ hreads =>
    have hrun := hreads pre rest (.refl pre rest) tokens.ending []
    rw [← hts] at hrun
    cases hread.symm.trans hrun
    rw [hts, List.map_append] at hmarks
    obtain ⟨pre', rest', hbody, hpre, hrest⟩ := List.map_eq_append_iff.1 hmarks
    have hhead : Parser.SameHead rest rest' := by
      rw [Parser.SameHead, ← List.head?_map, ← List.head?_map, hrest]
    have hother : other.readProgram = .ok p ⟨rest', other.ending, []⟩ := by
      rw [Tokens.readProgram, hbound, Cursor.ofTokens, hbody]
      exact hreads pre' rest' ⟨hpre, hhead⟩ other.ending []
    rw [Program.ofTokens, hother]
  | refuses pre rest near cause inner hts hrefuses =>
    have hrun := hrefuses pre rest (.refl pre rest) tokens.ending []
    rw [← hts] at hrun
    cases hread.symm.trans hrun
  | misses hmisses =>
    obtain ⟨r, d, hrun, -⟩ := hmisses tokens.ending []
    cases hread.symm.trans hrun

/-- Two sources that are programs, one below the other, are the one program and then the
other. -/
theorem parse_append_newline {source₁ source₂ : Text} {p₁ p₂ : Program}
    (h₁ : Program.parse source₁ = .ok p₁) (h₂ : Program.parse source₂ = .ok p₂) :
    Program.parse (source₁ ++ Byte.newline :: source₂) = .ok (p₁ ++ p₂) := by
  obtain ⟨tokens₁, hscan₁, hread₁⟩ := exists_tokens_of_parse h₁
  obtain ⟨tokens₂, hscan₂, hread₂⟩ := exists_tokens_of_parse h₂
  obtain ⟨tokens, ts, hscan, hbody, hmarks⟩ := Token.scan_append_newline hscan₁ hscan₂
  have hfirst : Stmts tokens₁.body p₁ [] := spells_of_ofTokens (Token.proper_of_scan hscan₁) hread₁
  have hproper : ∀ t ∈ ts, t.Proper := fun t ht =>
    Token.proper_of_scan hscan t (hbody ▸ List.mem_append_right _ ht)
  have hread : Program.ofTokens ⟨ts, tokens.ending⟩ = .ok p₂ := ofTokens_of_marks hmarks hread₂
  have hsecond : Stmts ts p₂ [] := spells_of_ofTokens hproper hread
  have helse : ¬ Next .elseWord ts := hsecond.not_next_else (by simp [Next])
  obtain ⟨pre, hpre, hshift⟩ := hfirst.shift
  rw [List.append_nil] at hpre
  have hboth : Spells tokens (p₁ ++ p₂) := by
    rw [Spells, hbody, hpre]
    exact (hshift ts fun hnext => absurd hnext helse).append hsecond
  rw [Program.parse, hscan]
  exact ofTokens_of_spells hboth

/-- The newline ends the comment, and the `if` has no `else` in the second source. -/
theorem parse_open_if_append :
    Program.parse (utf8 "x=2;if(a)b; // c;" ++ Byte.newline :: utf8 "/**/if(c)d;else e;") =
      .ok ([.binary .assign (.ident (utf8 "x")) (.num 2),
        .cond (.ident (utf8 "a")) (.ident (utf8 "b")) none] ++
        [.cond (.ident (utf8 "c")) (.ident (utf8 "d")) (some (.ident (utf8 "e")))]) :=
  parse_append_newline (by cbv) (by cbv)

end WordC
