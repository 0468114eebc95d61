import Mathlib
import WordC.Proofs.Codegen.Emitted
import WordC.Proofs.Codegen.Listing
/-!
What the reader makes of a generated text.

The text of a function is read without loss: its instructions, its labels and its
exported symbol are found where the text shows them, and comments add nothing.  Two
things can stop the reader, a branch label that is spelled like the entry and a line
that is too long.  The settings are not checked for either.
-/

namespace WordC

namespace Asm
namespace Image

/-- The image has what the text of a function shows: the exported entry, the instructions in
order, and every label with the number of instructions above it. -/
structure Reflects (image : Image) (entry code : Text) : Prop where
  globals : image.globals = [entry]
  instructions :
    image.instructions.toList.map (·.instruction.text) = writtenInstructions code
  labels : image.labels =
    (entry, 0) :: (branchLabels code).map fun name => (name, (instructionsAbove code name : Int))
  nodup : (entry :: branchLabels code).Nodup

end Image
end Asm

namespace Codegen

open Asm

/-! ## Comments do not change the code -/

theorem body_comments {settings : Settings} {p : Program} {code : Code} {s s' : State}
    (h : body settings p s = .ok code s') (comments : Bool) :
    ∃ code', body { settings with comments } p s = .ok code' s' := by
  induction p generalizing s code with
  | nil => exact ⟨code, h⟩
  | cons n rest ih =>
    obtain ⟨first, s₁, hfirst, h⟩ := bind_ok h
    obtain ⟨others, s₂, hothers, h⟩ := bind_ok h
    cases h
    obtain ⟨others', hothers'⟩ := ih hothers
    exact ⟨_, (bind_of_ok hfirst).trans (bind_of_ok hothers')⟩

theorem run_comments {settings : Settings} {p : Program} {code : Code} {s : State}
    (h : run settings p = .ok code s) (comments : Bool) :
    ∃ code', run { settings with comments } p = .ok code' s := by
  obtain ⟨bodyCode, s₁, hbody, h⟩ := bind_ok h
  obtain ⟨bodyCode', hbody'⟩ := body_comments hbody comments
  obtain ⟨_, _, hget, h⟩ := bind_ok h
  cases hget
  obtain ⟨_, s₂, hrecord, h⟩ := bind_ok h
  cases hrecord
  cases h
  exact ⟨_, (bind_of_ok hbody').trans (bind_of_ok rfl)⟩

theorem programSites_uncommented (settings : Settings) (slot : Text → Nat) (b : Nat) (p : Program) :
    ((programSites settings slot b p).map Site.line).filter (!·.isComment) =
      ((allSites settings.labelStem slot b p).map Site.line).filter (!·.isComment) := by
  induction p generalizing b with
  | nil => rfl
  | cons n rest ih =>
    have hannounced : ((if settings.comments then plain 0 [announcement n] else []).map
        Site.line).filter (!·.isComment) = [] := by
      split
      · rfl
      · rfl
    simp only [programSites, allSites, List.map_append, List.filter_append, hannounced, ih,
      List.nil_append]

theorem functionLines_comments (settings : Settings) (comments : Bool) (entry : Text)
    (frame : Frame) (slot : Text → Nat) (p : Program) :
    (functionLines entry frame (bodySites { settings with comments } slot p)).filter
        (!·.isComment) =
      (functionLines entry frame (bodySites settings slot p)).filter (!·.isComment) := by
  simp only [functionLines, bodySites, List.filter_append]
  cases p with
  | nil => rfl
  | cons n rest =>
    simp only [List.isEmpty_cons, Bool.false_eq_true, if_false, programSites_uncommented]

/-! ## The image of a function -/

theorem exported?_of_emitted {slot : Text → Nat} {names : List Text} {l : Line}
    (h : Emitted slot names l) : l.exported? = none := by
  cases h with
  | fixed hl => exact (by decide : ∀ l ∈ fixedLines, l.exported? = none) l hl
  | _ => rfl

theorem exported?_of_straight {l : Line} (h : Straight l) : l.exported? = none := by
  obtain ⟨i, rfl, -⟩ := h
  rfl

theorem linesAbove_entry (entry : Text) (frame : Frame) (body : List Site) :
    linesAbove (functionLines entry frame body) entry = 0 := by
  rw [functionLines_eq]
  show linesAbove (.intelNotation :: .global entry :: .label entry :: _) entry = 0
  rw [linesAbove_cons, linesAbove_cons, linesAbove_self]
  · rfl
  · nofun
  · nofun

section Function

variable {entry stem : Text} {frame : Frame} {body : List Site} {count : Nat}

theorem exported_function {slot : Text → Nat} {names : List Text} (h : Emits slot names body) :
    (functionLines entry frame body).filterMap Line.exported? = [entry] := by
  have hstraight : ∀ {code : Code}, (∀ l ∈ code, Straight l) →
      code.filterMap Line.exported? = [] := fun hcode =>
    List.filterMap_eq_nil_iff.2 fun l hl => exported?_of_straight (hcode l hl)
  have hbody : (body.map Site.line).filterMap Line.exported? = [] :=
    List.filterMap_eq_nil_iff.2 fun l hl => exported?_of_emitted (h l hl)
  rw [functionLines_eq]
  simp only [List.filterMap_append, hstraight (straight_entering frame), hbody,
    hstraight straight_epilogue, List.append_nil]
  rfl

theorem reflects_function (hentry : entry ≠ [] ∧ ∀ b ∈ entry, IsPlain b)
    (hbody : Labelled stem 0 count body) {slot : Text → Nat} {names : List Text}
    (hemits : Emits slot names body)
    (hclash : entry ∉ branchLabels (render (functionLines entry frame body))) :
    (assemble 1 (functionLines entry frame body) .empty).Reflects entry
      (render (functionLines entry frame body)) where
  globals := by
    rw [globals_assemble, exported_function hemits]
    rfl
  instructions := by
    have hinstructions := instructions_assemble 1 (functionLines entry frame body) .empty
    rw [writtenInstructions_render (readable_function hentry hbody)]
    calc _ = ((assemble 1 (functionLines entry frame body) .empty).instructions.toList.map
          Placed.instruction).map Instruction.text := by rw [List.map_map]; rfl
      _ = _ := by rw [hinstructions]; rfl
  labels := by
    have hnodup := (nodup_function hentry hbody).2 hclash
    have hlabels := labels_assemble 1 (functionLines entry frame body) .empty
    rw [labelPlaces_eq hnodup, definedLabels_function, List.map_cons, linesAbove_entry] at hlabels
    rw [hlabels, branchLabels_function hentry hbody]
    refine congrArg (List.cons (entry, 0)) (List.map_congr_left fun name _ => ?_)
    rw [instructionsAbove_render (readable_function hentry hbody)]
    simp [Image.empty]
  nodup := by
    have hnodup := (nodup_function hentry hbody).2 hclash
    rwa [definedLabels_function, ← branchLabels_function hentry hbody] at hnodup

end Function

/-! ## Generated texts -/

section Settings

variable {settings : Settings} (hproblem : settings.problem? = none) (p : Program) (frame : Frame)

include hproblem

theorem labelled_programLines :
    Labelled settings.labelStem 0 (Node.branchesAll p) (bodySites settings frame.names.idxOf p) :=
  labelled_body (sane_of_problem? hproblem).stem frame.names.idxOf p

theorem readable_programLines : ∀ l ∈ programLines settings p frame, l.Readable :=
  readable_function (sane_of_problem? hproblem).entry (labelled_programLines hproblem p frame)

theorem nodup_programLines :
    (definedLabels (programLines settings p frame)).Nodup ↔
      settings.entrySymbol ∉ branchLabels (render (programLines settings p frame)) :=
  nodup_function (sane_of_problem? hproblem).entry (labelled_programLines hproblem p frame)

theorem parse_programLines
    (hclash : settings.entrySymbol ∉ branchLabels (render (programLines settings p frame)))
    (hshort : ∀ line ∈ Text.splitOn Byte.newline (render (programLines settings p frame)),
      line.length ≤ 65535) :
    Image.parse (render (programLines settings p frame)) =
      .ok (assemble 1 (programLines settings p frame) .empty) :=
  parse_function (sane_of_problem? hproblem).entry (labelled_programLines hproblem p frame) hclash
    fun line hline => Nat.lt_succ_of_le (hshort line hline)

/-- The reader stops at a line that is too long, or where the entry is defined again. -/
theorem refused_programLines {e : ReadError}
    (h : Image.parse (render (programLines settings p frame)) = .error e) :
    (e = .lineTooLong ∧
      ∃ line ∈ Text.splitOn Byte.newline (render (programLines settings p frame)),
        65535 < line.length) ∨
    settings.entrySymbol ∈ branchLabels (render (programLines settings p frame)) ∧
      ∃ line, e = .malformed line
        ⟨settings.entrySymbol ++ [Byte.colon], .duplicateLabel settings.entrySymbol⟩ := by
  have hbody := labelled_programLines hproblem p frame
  rcases parse_refused (readable_programLines hproblem p frame) (targets_function hbody) h with
    hlong | ⟨line, name, rfl, hcount⟩
  · exact .inl hlong
  · have honce := List.nodup_iff_count.1 hbody.nodup name
    rw [programLines, definedLabels_function, List.count_cons] at hcount
    -- no name stands twice among the branch labels, so one of the two is the entry
    by_cases hname : settings.entrySymbol = name
    · subst hname
      refine .inr ⟨?_, line, rfl⟩
      rw [programLines, branchLabels_function (sane_of_problem? hproblem).entry hbody]
      refine List.count_pos_iff.1 ?_
      rw [if_pos (beq_self_eq_true _)] at hcount
      omega
    · rw [if_neg (by simpa using hname)] at hcount
      omega

theorem labelStem_of_mem_branchLabels {name : Text}
    (h : name ∈ branchLabels (render (programLines settings p frame))) :
    settings.labelStem <+: name := by
  have hbody := labelled_programLines hproblem p frame
  rw [programLines, branchLabels_function (sane_of_problem? hproblem).entry hbody] at h
  obtain ⟨m, -, -, hname⟩ := hbody.range name h
  simp only [Branch.names, Branch.numbered, List.append_assoc, List.mem_cons, List.not_mem_nil,
    or_false] at hname
  rcases hname with rfl | rfl | rfl
  · exact List.prefix_append _ _
  · exact List.prefix_append _ _
  · exact List.prefix_append _ _

end Settings

/-- A clash is found by the reader, unless it fails before. -/
theorem refused_of_clash {p : Program} {settings : Settings} {code : Text}
    (h : p.generate settings = .ok code)
    (hclash : settings.withDefaults.entrySymbol ∈ branchLabels code)
    (hshort : ∀ line ∈ Text.splitOn Byte.newline code, line.length ≤ 65535) :
    ∃ line, Image.parse code = .error (.malformed line
      ⟨settings.withDefaults.entrySymbol ++ [Byte.colon],
        .duplicateLabel settings.withDefaults.entrySymbol⟩) := by
  obtain ⟨s, hproblem, -, rfl⟩ := generate_programLines h
  cases hparse : Image.parse (render (programLines settings.withDefaults p s.frame)) with
  | ok image =>
    have hread := nodup_of_parse (readable_programLines hproblem p s.frame) hparse
    exact absurd hclash ((nodup_programLines hproblem p s.frame).1 hread.1)
  | error e =>
    rcases refused_programLines hproblem p s.frame hparse with
      ⟨-, line, hline, hlong⟩ | ⟨-, line, rfl⟩
    · exact absurd (hshort line hline) (Nat.not_le.2 hlong)
    · exact ⟨line, rfl⟩

end Codegen

open Asm Codegen

/-- Whether a program is generated as a text that passes a test. -/
def Program.generates (p : Program) (settings : Settings) (test : Text → Bool) : Bool :=
  match p.generate settings with
  | .error _ => false
  | .ok code => test code

theorem Program.exists_of_generates {p : Program} {settings : Settings} {test : Text → Bool}
    (h : p.generates settings test = true) :
    ∃ code, p.generate settings = .ok code ∧ test code = true := by
  unfold generates at h
  split at h
  · cases h
  · next code hcode => exact ⟨code, hcode, h⟩

/-- No line of the text is too long for the reader. -/
def isNarrow (code : Text) : Bool := (Text.splitOn Byte.newline code).all (·.length ≤ 65535)

theorem isNarrow_iff {code : Text} :
    isNarrow code = true ↔ ∀ line ∈ Text.splitOn Byte.newline code, line.length ≤ 65535 := by
  simp [isNarrow]

/-- A generated text is read as the image that it shows.  Whether the statements are announced
or not, the text is generated all the same, its other lines are the same, and the image is
the same but for the numbers of its lines. -/
theorem generated_text_read_back {p : Program} {settings : Settings} {code : Text}
    (h : p.generate settings = .ok code)
    (hentry : settings.withDefaults.entrySymbol ∉ branchLabels code)
    (hlines : ∀ line ∈ Text.splitOn Byte.newline code, line.length ≤ 65535) :
    ∃ image, Image.parse code = .ok image ∧
      image.Reflects settings.withDefaults.entrySymbol code ∧
      ∀ comments, ∃ code', p.generate { settings with comments } = .ok code' ∧
        uncommented code' = uncommented code ∧
        ((∀ line ∈ Text.splitOn Byte.newline code', line.length ≤ 65535) →
          ∃ image', Image.parse code' = .ok image' ∧ image.Agrees image') := by
  obtain ⟨s, hproblem, hrun, rfl⟩ := generate_programLines h
  have hreflects : (assemble 1 (programLines settings.withDefaults p s.frame) .empty).Reflects
      settings.withDefaults.entrySymbol (render (programLines settings.withDefaults p s.frame)) :=
    reflects_function (sane_of_problem? hproblem).entry (labelled_programLines hproblem p s.frame)
      (emits_bodySites settings.withDefaults p fun _ hx => hx) hentry
  refine ⟨_, parse_programLines hproblem p s.frame hentry hlines, hreflects, fun comments => ?_⟩
  obtain ⟨lines', hrun'⟩ := run_comments hrun comments
  obtain ⟨rfl, -⟩ := run_ok hrun'
  -- neither the check of the settings nor the frame depends on the comments
  have hproblem' : { settings.withDefaults with comments }.problem? = none := hproblem
  have hfilter := functionLines_comments settings.withDefaults comments
    settings.withDefaults.entrySymbol s.frame s.frame.names.idxOf p
  refine ⟨_, generate_of_run hproblem' hrun', ?_, fun hlines' => ?_⟩
  · have htext := uncommented_render (readable_programLines hproblem p s.frame)
    have htext' := uncommented_render (readable_programLines hproblem' p s.frame)
    rw [htext]
    refine htext'.trans ?_
    rw [programLines, programLines, hfilter]
  · have hnodup := (nodup_programLines hproblem p s.frame).2 hentry
    rw [programLines, ← definedLabels_of_filter hfilter] at hnodup
    have hentry' := (nodup_programLines hproblem' p s.frame).1 hnodup
    exact ⟨_, parse_programLines hproblem' p s.frame hentry' hlines',
      agrees_assemble hfilter 1 .empty⟩

/-- Names that no source spells, a literal of each width, and a loop where a clause stands. -/
def oddNames : Program :=
  [.cond (.ident (utf8 "a#\n b:"))
      (.binary .assign (.ident (utf8 "x:")) (.num Int64.minValue)) none,
    .iter (some (.loop (.num 0) (.ident (utf8 "\n")))) none none (.ret (.num 3000000000))]

theorem oddNames_read_back :
    ∃ code image, oddNames.generate ⟨utf8 "Lend3", 0, utf8 "L", true⟩ = .ok code ∧
      Image.parse code = .ok image ∧ image.Reflects (utf8 "Lend3") code ∧
      ∃ code', oddNames.generate ⟨utf8 "Lend3", 0, utf8 "L", false⟩ = .ok code' ∧
        uncommented code' = uncommented code := by
  have hgenerates : oddNames.generates ⟨utf8 "Lend3", 0, utf8 "L", true⟩ (fun code =>
      utf8 "Lend3" ∉ branchLabels code && isNarrow code) = true := by
    set_option maxRecDepth 4000 in
    cbv
  obtain ⟨code, hcode, htest⟩ := Program.exists_of_generates hgenerates
  obtain ⟨hentry, hnarrow⟩ := Bool.and_eq_true_iff.1 htest
  obtain ⟨image, himage, hreflects, hcomments⟩ := generated_text_read_back hcode
    (of_decide_eq_true hentry) (isNarrow_iff.1 hnarrow)
  obtain ⟨code', hcode', hsame, -⟩ := hcomments false
  exact ⟨code, image, hcode, himage, hreflects, code', hcode', hsame⟩

/-- When a compiled text is read.  Its branch labels are distinct, so that only the entry can
be defined twice, which takes an entry that starts with the stem of the labels. -/
theorem compiled_text_read_iff {source code : Text} {settings : Settings}
    (h : compile source settings = .ok code) :
    let entry := settings.withDefaults.entrySymbol
    writtenLabels code = entry :: branchLabels code ∧ (branchLabels code).Nodup ∧
      ((∃ image, Image.parse code = .ok image) ↔
        entry ∉ branchLabels code ∧
          ∀ line ∈ Text.splitOn Byte.newline code, line.length ≤ 65535) ∧
      (entry ∈ branchLabels code → settings.withDefaults.labelStem <+: entry) ∧
      ∀ e, Image.parse code = .error e →
        (e = .lineTooLong ∧ ∃ line ∈ Text.splitOn Byte.newline code, 65535 < line.length) ∨
        entry ∈ branchLabels code ∧
          ∃ line, e = .malformed line ⟨entry ++ [Byte.colon], .duplicateLabel entry⟩ := by
  cases hparse : Program.parse source with
  | error r => cases h.symm.trans (compile_of_rejection hparse settings)
  | ok p =>
    rw [compile_of_parse hparse] at h
    obtain ⟨s, hproblem, -, rfl⟩ := generate_programLines h
    have hentry := (sane_of_problem? hproblem).entry
    have hbody := labelled_programLines hproblem p s.frame
    have hnodup := nodup_programLines hproblem p s.frame
    refine ⟨?_, ?_, ⟨?_, ?_⟩, ?_, ?_⟩
    · rw [programLines, writtenLabels_function hentry hbody, branchLabels_function hentry hbody]
    · rw [programLines, branchLabels_function hentry hbody]
      exact hbody.nodup
    · rintro ⟨image, himage⟩
      have hread := nodup_of_parse (readable_programLines hproblem p s.frame) himage
      exact ⟨hnodup.1 hread.1, fun line hline => Nat.le_of_lt_succ (hread.2 line hline)⟩
    · rintro ⟨hclash, hshort⟩
      exact ⟨_, parse_programLines hproblem p s.frame hclash hshort⟩
    · exact labelStem_of_mem_branchLabels hproblem p s.frame
    · exact fun e he => refused_programLines hproblem p s.frame he

/-- One branch. -/
def branchText : Text := utf8 "if(1)2;"

theorem parse_branchText : Program.parse branchText = .ok [.cond (.num 1) (.num 2) none] := by
  cbv

/-- The stem may begin the entry, if the program takes no number that makes a label of it. -/
theorem branchText_read :
    ∃ code image, compile branchText ⟨utf8 "Lend1", 0, utf8 "L", true⟩ = .ok code ∧
      Image.parse code = .ok image := by
  have hgenerates : Program.generates [.cond (.num 1) (.num 2) none]
      ⟨utf8 "Lend1", 0, utf8 "L", true⟩ (fun code =>
        utf8 "Lend1" ∉ branchLabels code && isNarrow code) = true := by
    set_option maxRecDepth 2000 in
    cbv
  obtain ⟨code, hcode, htest⟩ := Program.exists_of_generates hgenerates
  obtain ⟨hentry, hnarrow⟩ := Bool.and_eq_true_iff.1 htest
  rw [← compile_of_parse parse_branchText] at hcode
  obtain ⟨-, -, hread, -⟩ := compiled_text_read_iff hcode
  obtain ⟨image, himage⟩ := hread.2 ⟨of_decide_eq_true hentry, isNarrow_iff.1 hnarrow⟩
  exact ⟨code, image, hcode, himage⟩

/-- The label behind the branch is the entry once more: the text is compiled, and not read. -/
theorem branchText_not_read :
    ∃ code line, compile branchText ⟨utf8 "Lend0", 0, utf8 "L", false⟩ = .ok code ∧
      Image.parse code =
        .error (.malformed line ⟨utf8 "Lend0:", .duplicateLabel (utf8 "Lend0")⟩) := by
  have hgenerates : Program.generates [.cond (.num 1) (.num 2) none]
      ⟨utf8 "Lend0", 0, utf8 "L", false⟩ (fun code =>
        utf8 "Lend0" ∈ branchLabels code && isNarrow code) = true := by
    set_option maxRecDepth 2000 in
    cbv
  obtain ⟨code, hcode, htest⟩ := Program.exists_of_generates hgenerates
  obtain ⟨hentry, hnarrow⟩ := Bool.and_eq_true_iff.1 htest
  obtain ⟨line, hline⟩ := refused_of_clash hcode (of_decide_eq_true hentry) (isNarrow_iff.1 hnarrow)
  rw [← compile_of_parse parse_branchText] at hcode
  exact ⟨code, line, hcode, hline⟩

end WordC
