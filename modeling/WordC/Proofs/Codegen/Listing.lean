import WordC.Compile
import WordC.Proofs.Asm.Contents
import WordC.Proofs.Codegen.Generate
import WordC.Proofs.Codegen.Labels
/-!
The assembly text of a compiled function is read back.

The settings are refused unless the entry and the label stem are names that the text
can carry.  One clash is left: the entry may be spelled like a branch label.  Without
it, and without a line that the reader is too small for, the text is read as the lines
that the generator wrote.
-/

namespace WordC
namespace Codegen

open Asm

theorem plain_of_isSymbolName {t : Text} (h : t.isSymbolName = true) :
    t ≠ [] ∧ ∀ b ∈ t, IsPlain b := by
  cases t with
  | nil => cases h
  | cons b rest =>
    rw [Text.isSymbolName, Bool.and_eq_true] at h
    have hb : Byte.isNamePart b = true := by
      have hstart := h.1
      rw [Byte.isNameStart] at hstart
      rw [Byte.isNamePart, hstart, Bool.true_or]
    refine ⟨List.cons_ne_nil b rest, List.forall_mem_cons.2 ⟨isPlain_namePart hb, fun c hc => ?_⟩⟩
    exact isPlain_namePart (List.all_eq_true.1 h.2 c hc)

theorem plain_of_isLabelStem {stem : Text} (h : Settings.isLabelStem stem = true) :
    ∀ b ∈ stem, IsPlain b := by
  unfold Settings.isLabelStem at h
  split at h
  · next rest =>
    exact List.forall_mem_cons.2 ⟨by decide, (plain_of_isSymbolName h).2⟩
  · exact (plain_of_isSymbolName h).2

/-- What settings without a problem promise. -/
structure Sane (settings : Settings) : Prop where
  slots : 0 ≤ settings.frameSlots.toInt
  entry : settings.entrySymbol ≠ [] ∧ ∀ b ∈ settings.entrySymbol, IsPlain b
  stem : ∀ b ∈ settings.labelStem, IsPlain b

theorem sane_of_problem? {settings : Settings} (h : settings.problem? = none) : Sane settings := by
  unfold Settings.problem? at h
  split at h
  · cases h
  · next hslots =>
    split at h
    · cases h
    · next hentry =>
      split at h
      · cases h
      · next hstem =>
        refine ⟨?_, plain_of_isSymbolName (by simpa using hentry),
          plain_of_isLabelStem (by simpa using hstem)⟩
        have hnonneg := Int64.le_iff_toInt_le.1 (Int64.not_lt.1 hslots)
        simpa using hnonneg

/-- Generation ends with a problem of the settings, or as the generator does. -/
theorem generate_cases (p : Program) (settings : Settings) :
    (∃ problem, settings.withDefaults.problem? = some problem ∧
      p.generate settings = .error (.settings problem)) ∨
    settings.withDefaults.problem? = none ∧
      ((∃ lines s, run settings.withDefaults p = .ok lines s ∧
        p.generate settings = .ok (render lines)) ∨
      ∃ f s, run settings.withDefaults p = .error f s ∧ p.generate settings = .error (.failed f)) := by
  unfold Program.generate Program.generateRecorded
  dsimp only
  cases hproblem : settings.withDefaults.problem? with
  | some problem => exact .inl ⟨problem, rfl, rfl⟩
  | none =>
    refine .inr ⟨rfl, ?_⟩
    cases hrun : run settings.withDefaults p with
    | ok lines s => exact .inl ⟨lines, s, rfl, rfl⟩
    | error f s => exact .inr ⟨f, s, rfl, rfl⟩

theorem generate_ok {p : Program} {code : Text} {settings : Settings}
    (h : p.generate settings = .ok code) :
    ∃ lines s, settings.withDefaults.problem? = none ∧
      run settings.withDefaults p = .ok lines s ∧ code = render lines := by
  rcases generate_cases p settings with
    ⟨problem, -, herror⟩ | ⟨hproblem, ⟨lines, s, hrun, hok⟩ | ⟨f, s, -, herror⟩⟩
  · cases h.symm.trans herror
  · cases h.symm.trans hok
    exact ⟨lines, s, hproblem, hrun, rfl⟩
  · cases h.symm.trans herror

theorem compile_of_parse {source : Text} {p : Program} (h : Program.parse source = .ok p)
    (settings : Settings) : compile source settings = p.generate settings := by
  unfold compile compileRecorded
  rw [h]
  rfl

theorem compile_of_rejection {source : Text} {r : Rejection} (h : Program.parse source = .error r)
    (settings : Settings) : compile source settings = .error (.rejected r) := by
  unfold compile compileRecorded
  rw [h]

/-- A compiled source was parsed and generated. -/
theorem compile_ok {source code : Text} {settings : Settings}
    (h : compile source settings = .ok code) :
    ∃ p lines s, Program.parse source = .ok p ∧ Sane settings.withDefaults ∧
      run settings.withDefaults p = .ok lines s ∧ code = render lines := by
  cases hparse : Program.parse source with
  | error r => cases h.symm.trans (compile_of_rejection hparse settings)
  | ok p =>
    rw [compile_of_parse hparse] at h
    obtain ⟨lines, s, hproblem, hrun, rfl⟩ := generate_ok h
    exact ⟨p, lines, s, rfl, sane_of_problem? hproblem, hrun, rfl⟩

/-! ## The lines of a function -/

/-- The instructions that reserve the frame. -/
def entering (frame : Frame) : Code :=
  [op .push [.register .rbp], op .mov [.register .rbp, .register .rsp]] ++
    if 0 < frame.size then [op (.arith .sub) [.register .rsp, .immediate frame.size]] else []

theorem prologue_eq (entry : Text) (frame : Frame) :
    prologue entry frame = [.intelNotation, .global entry, .label entry] ++ entering frame := rfl

theorem straight_entering (frame : Frame) : ∀ l ∈ entering frame, Straight l := by
  rw [entering, List.forall_mem_append]
  constructor
  · refine List.forall_mem_cons.2 ⟨straight_push (by decide), List.forall_mem_singleton.2 ?_⟩
    exact straight_registers (by decide) rfl rfl (by decide) (by decide)
  · split
    · exact List.forall_mem_singleton.2 (straight_immediate (by decide) rfl rfl (by decide) _)
    · nofun

/-- The lines of a function around the code of its body. -/
def functionLines (entry : Text) (frame : Frame) (body : List Site) : List Line :=
  prologue entry frame ++ body.map Site.line ++ epilogue

theorem functionLines_eq (entry : Text) (frame : Frame) (body : List Site) :
    functionLines entry frame body = [.intelNotation, .global entry, .label entry] ++
      (entering frame ++ body.map Site.line ++ epilogue) := by
  rw [functionLines, prologue_eq, List.append_assoc, List.append_assoc, List.append_assoc]

theorem definedLabels_straight {code : Code} (h : ∀ l ∈ code, Straight l) :
    definedLabels code = [] := by
  rw [definedLabels, List.filterMap_eq_nil_iff]
  exact fun l hl => (h l hl).label?

theorem definedLabels_function (entry : Text) (frame : Frame) (body : List Site) :
    definedLabels (functionLines entry frame body) = entry :: siteTexts Line.label? body := by
  rw [functionLines_eq]
  simp only [definedLabels_append, definedLabels_straight (straight_entering frame),
    definedLabels_straight straight_epilogue, List.nil_append, List.append_nil]
  rfl

section Reading

variable {entry stem : Text} {frame : Frame} {body : List Site} {count : Nat}
  (hentry : entry ≠ [] ∧ ∀ b ∈ entry, IsPlain b) (hbody : Labelled stem 0 count body)

include hentry hbody

theorem readable_function : ∀ l ∈ functionLines entry frame body, l.Readable := by
  rw [functionLines_eq]
  simp only [List.forall_mem_append, List.forall_mem_cons, List.forall_mem_map]
  refine ⟨⟨trivial, hentry, hentry, List.forall_mem_nil _⟩, ⟨?_, hbody.readable⟩, ?_⟩
  · exact fun l hl => (straight_entering frame l hl).readable
  · exact fun l hl => (straight_epilogue l hl).readable

theorem writtenLabels_function :
    writtenLabels (render (functionLines entry frame body)) =
      entry :: siteTexts Line.label? body := by
  rw [writtenLabels_render (readable_function hentry hbody), definedLabels_function]

theorem branchLabels_function :
    branchLabels (render (functionLines entry frame body)) = siteTexts Line.label? body := by
  rw [branchLabels, writtenLabels_function hentry hbody, List.tail_cons]

/-- One clash is possible: the entry may be spelled like a branch label. -/
theorem nodup_function :
    (definedLabels (functionLines entry frame body)).Nodup ↔
      entry ∉ branchLabels (render (functionLines entry frame body)) := by
  rw [definedLabels_function, branchLabels_function hentry hbody, List.nodup_cons]
  exact and_iff_left hbody.nodup

omit hentry in
theorem targets_function :
    ∀ l ∈ functionLines entry frame body, ∀ name ∈ l.target?,
      name ∈ definedLabels (functionLines entry frame body) := by
  intro l hl name hname
  have hstraight : ∀ l ∈ entering frame ++ epilogue, l.target? = none := fun l hl =>
    (List.forall_mem_append.2 ⟨straight_entering frame, straight_epilogue⟩ l hl).target?
  rw [functionLines_eq] at hl
  simp only [List.mem_append, List.mem_cons, List.not_mem_nil, or_false] at hl
  rw [definedLabels_function]
  refine List.mem_cons_of_mem _ (hbody.targets name (List.mem_filterMap.2 ⟨l, ?_, hname⟩))
  rcases hl with (rfl | rfl | rfl) | ((hl | hl) | hl)
  · cases hname
  · cases hname
  · cases hname
  · rw [hstraight l (List.mem_append_left _ hl)] at hname
    cases hname
  · exact hl
  · rw [hstraight l (List.mem_append_right _ hl)] at hname
    cases hname

theorem parse_function
    (hclash : entry ∉ branchLabels (render (functionLines entry frame body)))
    (hshort : ∀ line ∈ Text.splitOn Byte.newline (render (functionLines entry frame body)),
      line.length < Reader.lineLimit) :
    Image.parse (render (functionLines entry frame body)) =
      .ok (assemble 1 (functionLines entry frame body) .empty) := by
  exact parse_render (readable_function hentry hbody) hshort
    ((nodup_function hentry hbody).2 hclash) (targets_function hbody)

theorem holds_function
    (hclash : entry ∉ branchLabels (render (functionLines entry frame body))) :
    (assemble 1 (functionLines entry frame body) .empty).Holds 0 (functionLines entry frame body) :=
  Image.holds_assemble 1 ⟨(nodup_function hentry hbody).2 hclash, fun _ _ => rfl⟩

end Reading

/-! ## The lines of a program -/

/-- The lines of a program in a finished frame. -/
def programLines (settings : Settings) (p : Program) (frame : Frame) : List Line :=
  functionLines settings.entrySymbol frame (bodySites settings frame.names.idxOf p)

theorem generate_of_run {p : Program} {settings : Settings} {lines : Code} {s : State}
    (hproblem : settings.withDefaults.problem? = none)
    (hrun : run settings.withDefaults p = .ok lines s) :
    p.generate settings = .ok (render lines) := by
  rcases generate_cases p settings with
    ⟨problem, hsome, -⟩ | ⟨-, ⟨lines', s', hrun', hok⟩ | ⟨f, s', hrun', -⟩⟩
  · cases hproblem.symm.trans hsome
  · cases hrun.symm.trans hrun'
    exact hok
  · cases hrun.symm.trans hrun'

theorem generate_of_failure {p : Program} {settings : Settings} {f : Failure} {s : State}
    (hproblem : settings.withDefaults.problem? = none)
    (hrun : run settings.withDefaults p = .error f s) :
    p.generate settings = .error (.failed f) := by
  rcases generate_cases p settings with
    ⟨problem, hsome, -⟩ | ⟨-, ⟨lines, s', hrun', -⟩ | ⟨f', s', hrun', herror⟩⟩
  · cases hproblem.symm.trans hsome
  · cases hrun.symm.trans hrun'
  · cases hrun.symm.trans hrun'
    exact herror

theorem generate_of_problem {settings : Settings} {problem : Settings.Problem}
    (h : settings.withDefaults.problem? = some problem) (p : Program) :
    p.generate settings = .error (.settings problem) := by
  rcases generate_cases p settings with ⟨problem', hsome, herror⟩ | ⟨hnone, -⟩
  · cases h.symm.trans hsome
    exact herror
  · cases h.symm.trans hnone

theorem generate_programLines {p : Program} {settings : Settings} {code : Text}
    (h : p.generate settings = .ok code) :
    ∃ s, settings.withDefaults.problem? = none ∧
      run settings.withDefaults p = .ok (programLines settings.withDefaults p s.frame) s ∧
      code = render (programLines settings.withDefaults p s.frame) := by
  obtain ⟨lines, s, hproblem, hrun, rfl⟩ := generate_ok h
  obtain ⟨rfl, -⟩ := run_ok hrun
  exact ⟨s, hproblem, hrun, rfl⟩

end Codegen
end WordC
