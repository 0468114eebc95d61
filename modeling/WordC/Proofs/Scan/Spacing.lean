import WordC.Proofs.Printing.Scan
/-!
What stands between tokens.

`Spacing gap rest` says that `gap`, in front of `rest`, is a sequence of blanks, comments
to the end of a line and closed comments.  It says nothing of how the scanner finds its
way.  Two facts tie it to the scanner: every text starts with a spacing, up to its end, a
token or a comment that is never closed, and the scanner steps over any spacing.
-/

namespace WordC

/-- The offset at which the last line of a text starts. -/
def Text.lineStart (t : Text) : Nat :=
  t.length - (t.reverse.takeWhile (· != Byte.newline)).length

namespace Place

/-- The place behind a text, counted from the text alone. -/
def behind (before : Text) : Place where
  pos := before.length
  line := 1 + before.count Byte.newline
  column := before.length - before.lineStart + 1

theorem next_behind (before : Text) (b : UInt8) :
    (behind before).next b = behind (before ++ [b]) := by
  have hlength := (List.takeWhile_sublist (l := before.reverse) (· != Byte.newline)).length_le
  rw [List.length_reverse] at hlength
  by_cases hb : b = Byte.newline
  · simp [next, behind, Text.lineStart, hb]
    omega
  · simp [next, behind, Text.lineStart, hb]
    omega

theorem after_behind (before t : Text) : (behind before).after t = behind (before ++ t) := by
  induction t generalizing before with
  | nil => rw [after_nil, List.append_nil]
  | cons b t ih => rw [after_cons, next_behind, ih, List.append_assoc, List.singleton_append]

end Place

namespace Byte

/-- The bytes that are white space: those from tab to carriage return, the space, and two whose
code points are. -/
def blanks : List UInt8 := [9, 10, 11, 12, 13, 32, 0x85, 0xA0]

theorem isBlank_iff {b : UInt8} : isBlank b = true ↔ b ∈ blanks := by
  simp only [isBlank, blanks, Bool.or_eq_true, Bool.and_eq_true, decide_eq_true_eq,
    List.mem_cons, List.not_mem_nil, or_false, UInt8.le_iff_toNat_le, ← UInt8.toNat_inj,
    UInt8.reduceToNat]
  omega

theorem isBlank_eq_false_iff {b : UInt8} : isBlank b = false ↔ b ∉ blanks := by
  rw [← isBlank_iff, Bool.not_eq_true]

end Byte

namespace Token

/-- What closes a comment. -/
def closing : Text := [Byte.star, Byte.slash]

/-- A comment begins with the text. -/
def OpensComment (text : Text) : Prop :=
  [Byte.slash, Byte.slash] <+: text ∨ [Byte.slash, Byte.star] <+: text

/-- The text `gap` in front of `rest` is made of blanks and comments. -/
inductive Spacing : Text → Text → Prop where
  | nil {rest : Text} : Spacing [] rest
  | blank {b : UInt8} {gap rest : Text} :
      b ∈ Byte.blanks → Spacing gap rest → Spacing (b :: gap) rest
  /-- It goes up to a newline or the end of the text. -/
  | lineComment {body gap rest : Text} :
      Byte.newline ∉ body → (∀ b ∈ (gap ++ rest).head?, b = Byte.newline) → Spacing gap rest →
      Spacing ([Byte.slash, Byte.slash] ++ body ++ gap) rest
  /-- It goes up to the first place that closes it. -/
  | blockComment {body gap rest : Text} :
      ¬ closing <:+: body → Spacing gap rest →
      Spacing ([Byte.slash, Byte.star] ++ body ++ closing ++ gap) rest

/-- The text begins with a comment that is never closed. -/
def Unclosed (text : Text) : Prop :=
  ∃ body, text = [Byte.slash, Byte.star] ++ body ∧ ¬ closing <:+: body

theorem opensToken_iff {b : UInt8} {rest : Text} :
    opensToken (b :: rest) = true ↔ b ∉ Byte.blanks ∧ ¬ OpensComment (b :: rest) := by
  rw [← Byte.isBlank_eq_false_iff]
  cases rest with
  | nil => simp [opensToken, OpensComment]
  | cons c rest =>
    simp only [opensToken, OpensComment, List.cons_prefix_cons, List.nil_prefix, and_true,
      Bool.and_eq_true, Bool.not_eq_true', Bool.and_eq_false_iff, beq_eq_false_iff_ne,
      Bool.or_eq_false_iff]
    grind

/-- A text that holds what closes a comment is cut at the first place that does. -/
theorem exists_of_closing {text : Text} (h : closing <:+: text) :
    ∃ body rest, text = body ++ closing ++ rest ∧ ¬ closing <:+: body := by
  induction text with
  | nil => simp [closing] at h
  | cons b text ih =>
    by_cases hfirst : closing <+: b :: text
    · obtain ⟨rest, hrest⟩ := hfirst
      exact ⟨[], rest, hrest.symm, by simp [closing]⟩
    · obtain ⟨body, rest, rfl, hbody⟩ := ih ((List.infix_cons_iff.1 h).resolve_left hfirst)
      refine ⟨b :: body, rest, rfl, fun hinfix => ?_⟩
      rcases List.infix_cons_iff.1 hinfix with hstarts | hinfix
      · apply hfirst
        rw [List.append_assoc, ← List.cons_append]
        exact hstarts.trans (List.prefix_append _ _)
      · exact hbody hinfix

/-- A text is cut at the end of its first line. -/
theorem exists_of_line (text : Text) :
    ∃ body rest, text = body ++ rest ∧ Byte.newline ∉ body ∧
      ∀ b ∈ rest.head?, b = Byte.newline := by
  refine ⟨text.takeWhile (· != Byte.newline), text.dropWhile (· != Byte.newline),
    List.takeWhile_append_dropWhile.symm, fun hmem => ?_, fun b hb => ?_⟩
  · simpa using List.all_eq_true.1 List.all_takeWhile _ hmem
  · have hstop := List.head?_dropWhile_not (· != Byte.newline) text
    rw [Option.mem_def.1 hb] at hstop
    simpa using hstop

/-- Every text starts with a spacing, up to its end, a token or a comment that is never
closed. -/
theorem exists_spacing (text : Text) :
    ∃ gap rest, text = gap ++ rest ∧ Spacing gap rest ∧
      (rest = [] ∨ opensToken rest = true ∨ Unclosed rest) := by
  -- A comment takes more than one byte, so the induction is on the length.
  induction hn : text.length using Nat.strongRecOn generalizing text with
  | ind n ih =>
    subst hn
    cases text with
    | nil => exact ⟨[], [], rfl, .nil, .inl rfl⟩
    | cons b tail =>
      by_cases hblank : b ∈ Byte.blanks
      · obtain ⟨gap, rest, rfl, hgap, hrest⟩ := ih _ (Nat.lt_succ_self _) tail rfl
        exact ⟨b :: gap, rest, rfl, .blank hblank hgap, hrest⟩
      by_cases hline : [Byte.slash, Byte.slash] <+: b :: tail
      · obtain ⟨after, hafter⟩ := hline
        obtain ⟨body, others, rfl, hbody, hothers⟩ := exists_of_line after
        obtain ⟨gap, rest, rfl, hgap, hrest⟩ := ih _ (by simp [← hafter]; omega) others rfl
        refine ⟨[Byte.slash, Byte.slash] ++ body ++ gap, rest, ?_,
          .lineComment hbody hothers hgap, hrest⟩
        simp [← hafter]
      by_cases hblock : [Byte.slash, Byte.star] <+: b :: tail
      · obtain ⟨after, hafter⟩ := hblock
        by_cases hclosed : closing <:+: after
        · obtain ⟨body, others, rfl, hbody⟩ := exists_of_closing hclosed
          obtain ⟨gap, rest, rfl, hgap, hrest⟩ := ih _ (by simp [← hafter]; omega) others rfl
          refine ⟨[Byte.slash, Byte.star] ++ body ++ closing ++ gap, rest, ?_,
            .blockComment hbody hgap, hrest⟩
          simp [← hafter]
        · exact ⟨[], b :: tail, rfl, .nil, .inr (.inr ⟨after, hafter.symm, hclosed⟩)⟩
      · have hopens : opensToken (b :: tail) = true :=
          opensToken_iff.2 ⟨hblank, not_or.2 ⟨hline, hblock⟩⟩
        exact ⟨[], b :: tail, rfl, .nil, .inr (.inl hopens)⟩

/-! ## Stepping over a spacing -/

theorem skipGap_slash_slash (p : Place) (rest : Text) :
    skipGap .blank p ([Byte.slash, Byte.slash] ++ rest) =
      skipGap .lineComment (p.after [Byte.slash, Byte.slash]) rest :=
  skipGap.eq_2 p rest

theorem skipGap_slash_star (p : Place) (rest : Text) :
    skipGap .blank p ([Byte.slash, Byte.star] ++ rest) =
      skipGap (.blockComment p) (p.after [Byte.slash, Byte.star]) rest :=
  skipGap.eq_3 p rest

theorem skipGap_lineComment {body rest : Text} (hbody : Byte.newline ∉ body)
    (hrest : ∀ b ∈ rest.head?, b = Byte.newline) (p : Place) :
    skipGap .lineComment p (body ++ rest) = skipGap .blank (p.after body) rest := by
  induction body generalizing p with
  | nil =>
    cases rest with
    | nil => rfl
    | cons b rest =>
      obtain rfl := hrest b rfl
      rw [List.nil_append, Place.after_nil, skipGap_blank rfl, skipGap, if_pos rfl]
  | cons b body ih =>
    rw [List.mem_cons, not_or] at hbody
    rw [List.cons_append, skipGap, if_neg (Ne.symm hbody.1), ih hbody.2, Place.after_cons]

theorem skipGap_comment_cons {b : UInt8} {text : Text} (h : ¬ closing <+: b :: text)
    (opened p : Place) :
    skipGap (.blockComment opened) p (b :: text) =
      skipGap (.blockComment opened) (p.next b) text := by
  rw [skipGap]
  rintro rest rfl rfl
  exact h (List.prefix_append closing rest)

theorem skipGap_blockComment {body : Text} (hbody : ¬ closing <:+: body) (rest : Text)
    (opened p : Place) :
    skipGap (.blockComment opened) p (body ++ (closing ++ rest)) =
      skipGap .blank ((p.after body).after closing) rest := by
  induction body generalizing p with
  | nil => rfl
  | cons b body ih =>
    rw [List.infix_cons_iff, not_or] at hbody
    have hfirst : ¬ closing <+: b :: (body ++ (closing ++ rest)) := by
      intro hstarts
      apply hbody.1
      cases body with
      | nil =>
        have hnext := (List.cons_prefix_cons.1 (List.cons_prefix_cons.1 hstarts).2).1
        exact absurd hnext (by decide)
      | cons c body => simpa [closing, List.cons_prefix_cons] using hstarts
    rw [List.cons_append, skipGap_comment_cons hfirst, ih hbody.2, Place.after_cons]

theorem skipGap_unclosed {body : Text} (hbody : ¬ closing <:+: body) (opened p : Place) :
    skipGap (.blockComment opened) p body =
      .error ⟨opened, [Byte.slash, Byte.star], .unterminatedComment, [.token]⟩ := by
  induction body generalizing p with
  | nil => rfl
  | cons b body ih =>
    rw [List.infix_cons_iff, not_or] at hbody
    rw [skipGap_comment_cons hbody.1, ih hbody.2]

/-- The scanner steps over any spacing. -/
theorem skipGap_spacing {gap rest : Text} (h : Spacing gap rest) (p : Place) :
    skipGap .blank p (gap ++ rest) = skipGap .blank (p.after gap) rest := by
  induction h generalizing p with
  | nil => rfl
  | blank hb _ ih =>
    rw [List.cons_append, skipGap_blank (Byte.isBlank_iff.2 hb), ih, Place.after_cons]
  | lineComment hbody hrest _ ih =>
    rw [List.append_assoc, List.append_assoc, skipGap_slash_slash,
      skipGap_lineComment hbody hrest, ih, Place.after_append, Place.after_append]
  | blockComment hbody _ ih =>
    rw [List.append_assoc, List.append_assoc, List.append_assoc, skipGap_slash_star,
      skipGap_blockComment hbody, ih, Place.after_append, Place.after_append, Place.after_append]

theorem skipGap_of_unclosed {text : Text} (h : Unclosed text) (p : Place) :
    skipGap .blank p text =
      .error ⟨p, [Byte.slash, Byte.star], .unterminatedComment, [.token]⟩ := by
  obtain ⟨body, rfl, hbody⟩ := h
  rw [skipGap_slash_star, skipGap_unclosed hbody]

end Token
end WordC
