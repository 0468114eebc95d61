import Mathlib.Data.List.Basic
import WordC.Proofs.Asm.Assemble
/-!
What an assembly text shows to someone who does not read instructions.

The layout of a line tells what it holds.  A label starts at the margin and ends in a
colon.  An instruction is indented by two spaces, and a comment goes on with a hash.
For written lines these views are right, and `labelPlaces` gives the index that each
label has in the image, so that the image can be compared with the text itself.
-/

namespace WordC
namespace Asm

/-- The labels that a text defines, in order. -/
def writtenLabels (code : Text) : List Text :=
  (Text.splitOn Byte.newline code).filterMap fun line =>
    if line.getLast? = some Byte.colon then some line.dropLast else none

/-- The labels that the text of a function defines behind its entry. -/
def branchLabels (code : Text) : List Text := (writtenLabels code).tail

def isCommentLine (line : Text) : Bool := (utf8 "  #").isPrefixOf line

def isInstructionLine (line : Text) : Bool := (utf8 "  ").isPrefixOf line && !isCommentLine line

/-- The instructions of a text without their indent, in order. -/
def writtenInstructions (code : Text) : List Text :=
  ((Text.splitOn Byte.newline code).filter isInstructionLine).map (·.drop 2)

/-- How many instructions stand above a label. -/
def instructionsAbove (code label : Text) : Nat :=
  ((Text.splitOn Byte.newline code).takeWhile (· ≠ label ++ [Byte.colon])).countP isInstructionLine

/-- The lines of a text that are not comments. -/
def uncommented (code : Text) : List Text :=
  (Text.splitOn Byte.newline code).filter (!isCommentLine ·)

namespace Line

def instruction? : Line → Option Instruction
  | instruction i => some i
  | _ => none

/-- The symbol that the line exports. -/
def exported? : Line → Option Text
  | global name => some name
  | _ => none

def isComment : Line → Bool
  | comment _ => true
  | _ => false

theorem eq_label {l : Line} {name : Text} (h : l.label? = some name) : l = .label name := by
  cases l with
  | label other => rw [Option.some.inj h]
  | _ => cases h

theorem isPrefixOf_of_head? {c : UInt8} {t : Text} (h : t.head? ≠ some c) (rest : Text) :
    (c :: rest).isPrefixOf t = false := by
  cases t with
  | nil => rfl
  | cons b t =>
    have hb : ¬ c = b := fun heq => h (heq ▸ rfl)
    simp [List.isPrefixOf, hb]

/-- Labels and directives start at the margin. -/
theorem isPrefixOf_margin {l : Line} (h : l.Readable) (hinstruction : l.instruction? = none)
    (hcomment : l.isComment = false) (rest : Text) :
    (Byte.space :: rest).isPrefixOf l.bare = false := by
  refine isPrefixOf_of_head? (fun hhead => ?_) rest
  have hdot : Byte.dot ≠ Byte.space := by decide
  cases l with
  | intelNotation => exact hdot (Option.some.inj hhead)
  | global name => exact hdot (Option.some.inj hhead)
  | label name =>
    obtain ⟨b, name', rfl⟩ := List.exists_cons_of_ne_nil h.1
    obtain rfl : b = Byte.space := Option.some.inj hhead
    exact absurd (h.2 Byte.space List.mem_cons_self) (by decide)
  | instruction i => cases hinstruction
  | comment remark => cases hcomment

theorem isCommentLine_bare {l : Line} (h : l.Readable) : isCommentLine l.bare = l.isComment := by
  cases l with
  | instruction i =>
    have hhash : i.text.head? ≠ some Byte.hash := fun hhead =>
      (Instruction.trimmed_text h).unhashed (List.mem_of_head? hhead)
    exact isPrefixOf_of_head? hhash []
  | comment remark => rfl
  | _ => exact isPrefixOf_margin h rfl rfl _

theorem isInstructionLine_bare {l : Line} (h : l.Readable) :
    isInstructionLine l.bare = l.instruction?.isSome := by
  rw [isInstructionLine, isCommentLine_bare h]
  cases l with
  | instruction i => rfl
  | comment remark => exact Bool.and_false _
  | _ =>
    rw [show utf8 "  " = [Byte.space, Byte.space] from rfl, isPrefixOf_margin h rfl rfl]
    rfl

/-- Only a label ends in a colon. -/
theorem label?_bare {l : Line} (h : l.Readable) :
    (if l.bare.getLast? = some Byte.colon then some l.bare.dropLast else none) = l.label? := by
  have hbehind : ∀ {start t : Text}, t ≠ [] → t.getLast? ≠ some Byte.colon →
      (start ++ t).getLast? ≠ some Byte.colon := by
    intro start t hne ht heq
    rw [List.getLast?_append, List.getLast?_eq_some_getLast hne, Option.some_or,
      ← List.getLast?_eq_some_getLast] at heq
    exact ht heq
  cases l with
  | intelNotation => rfl
  | global name =>
    refine if_neg (hbehind h.1 fun heq => ?_)
    exact absurd (h.2 _ (List.mem_of_getLast? heq)) (by decide)
  | label name => rw [bare, List.getLast?_concat, if_pos rfl, List.dropLast_concat, label?]
  | instruction i =>
    have htext := Instruction.trimmed_text h
    exact if_neg (hbehind htext.nonempty fun heq => (htext.last _ heq).2 rfl)
  | comment remark =>
    cases remark with
    | nil => rfl
    | cons b remark => exact if_neg (hbehind (List.cons_ne_nil b remark) h.2)

theorem bare_eq_label {l : Line} (h : l.Readable) (name : Text) :
    l.bare = name ++ [Byte.colon] ↔ l = .label name := by
  refine ⟨fun heq => eq_label ?_, fun heq => heq ▸ rfl⟩
  rw [← label?_bare h, heq, List.getLast?_concat, if_pos rfl, List.dropLast_concat]

end Line

/-! ## The views of a written text -/

section Views

variable {lines : List Line} (h : ∀ l ∈ lines, l.Readable)

include h

theorem writtenLabels_render : writtenLabels (render lines) = definedLabels lines := by
  rw [writtenLabels, splitOn_render h, List.filterMap_append, List.filterMap_map, definedLabels]
  refine (List.append_nil _).trans (List.filterMap_congr fun l hl => ?_)
  exact Line.label?_bare (h l hl)

theorem writtenInstructions_render :
    writtenInstructions (render lines) =
      (lines.filterMap Line.instruction?).map Instruction.text := by
  rw [writtenInstructions, splitOn_render h, List.filter_append]
  refine (congrArg (List.map _) (List.append_nil _)).trans ?_
  induction lines with
  | nil => rfl
  | cons l lines ih =>
    have hrest := ih fun l' hl' => h l' (List.mem_cons_of_mem l hl')
    have hl := Line.isInstructionLine_bare (h l List.mem_cons_self)
    cases l with
    | instruction i =>
      rw [List.map_cons, List.filter_cons_of_pos hl, List.map_cons, hrest]
      rfl
    | _ =>
      rw [List.map_cons, List.filter_cons_of_neg (by rw [hl]; exact Bool.false_ne_true), hrest]
      rfl

theorem uncommented_render :
    uncommented (render lines) = (lines.filter (!·.isComment)).map Line.bare ++ [[]] := by
  rw [uncommented, splitOn_render h, List.filter_append, List.filter_map]
  refine congrArg₂ _ (congrArg _ (List.filter_congr fun l hl => ?_)) rfl
  rw [Function.comp_apply, Line.isCommentLine_bare (h l hl)]

end Views

/-- How many instructions stand above the line that defines a label. -/
def linesAbove (lines : List Line) (name : Text) : Nat :=
  (lines.takeWhile (· ≠ .label name)).countP (·.instruction?.isSome)

theorem linesAbove_cons {l : Line} {name : Text} (h : l ≠ .label name) (lines : List Line) :
    linesAbove (l :: lines) name =
      linesAbove lines name + if l.instruction?.isSome then 1 else 0 := by
  rw [linesAbove, List.takeWhile_cons_of_pos (by simpa using h), List.countP_cons, linesAbove]

theorem linesAbove_self (name : Text) (lines : List Line) :
    linesAbove (.label name :: lines) name = 0 := by
  rw [linesAbove, List.takeWhile_cons_of_neg (by simp), List.countP_nil]

theorem instructionsAbove_render {lines : List Line} (h : ∀ l ∈ lines, l.Readable) (name : Text) :
    instructionsAbove (render lines) name = linesAbove lines name := by
  rw [instructionsAbove, splitOn_render h]
  induction lines with
  | nil =>
    rw [List.map_nil, List.nil_append]
    rw [List.takeWhile_cons_of_pos (by simp)]
    rfl
  | cons l lines ih =>
    have hrest := ih fun l' hl' => h l' (List.mem_cons_of_mem l hl')
    have hl := h l List.mem_cons_self
    rw [List.map_cons, List.cons_append]
    by_cases hname : l = .label name
    · rw [hname, linesAbove_self, List.takeWhile_cons_of_neg (by simp [Line.bare]),
        List.countP_nil]
    · have hbare : l.bare ≠ name ++ [Byte.colon] := fun heq =>
        hname ((Line.bare_eq_label hl name).1 heq)
      rw [linesAbove_cons hname, List.takeWhile_cons_of_pos (by simpa using hbare),
        List.countP_cons, hrest, Line.isInstructionLine_bare hl]

/-! ## The image of the lines -/

/-- The labels of lines, each with the index of the next instruction, where the first
instruction has the index `pos`. -/
def labelPlaces : Nat → List Line → List (Text × Int)
  | _, [] => []
  | pos, .label name :: lines => (name, (pos : Int)) :: labelPlaces pos lines
  | pos, .instruction _ :: lines => labelPlaces (pos + 1) lines
  | pos, _ :: lines => labelPlaces pos lines

theorem labelPlaces_eq {lines : List Line} (h : (definedLabels lines).Nodup) (pos : Nat) :
    labelPlaces pos lines =
      (definedLabels lines).map fun name =>
        (name, ((pos + linesAbove lines name : Nat) : Int)) := by
  induction lines generalizing pos with
  | nil => rfl
  | cons l lines ih =>
    cases l with
    | label name =>
      rw [definedLabels_cons] at h
      obtain ⟨hname, hnodup⟩ := List.nodup_cons.1 h
      have hself : (name, (pos : Int)) =
          (name, ((pos + linesAbove (.label name :: lines) name : Nat) : Int)) := by
        rw [linesAbove_self, Nat.add_zero]
      refine congrArg₂ List.cons hself ((ih hnodup pos).trans ?_)
      -- the labels behind this one are others, so that counting does not stop here
      refine List.map_congr_left fun other hother => ?_
      have hne : Line.label name ≠ .label other := fun heq =>
        hname (Line.label.inj heq ▸ hother)
      rw [linesAbove_cons hne]
      rfl
    | instruction i =>
      refine (ih h (pos + 1)).trans (List.map_congr_left fun other _ => ?_)
      rw [linesAbove_cons, Nat.add_right_comm]
      · rfl
      · nofun
    | intelNotation | global _ | comment _ =>
      refine (ih h pos).trans (List.map_congr_left fun other _ => ?_)
      rw [linesAbove_cons]
      · rfl
      · nofun

section Image

variable (number : Nat) (lines : List Line) (image : Image)

theorem instructions_assemble :
    (assemble number lines image).instructions.toList.map Placed.instruction =
      image.instructions.toList.map Placed.instruction ++ lines.filterMap Line.instruction? := by
  induction lines generalizing number image with
  | nil => exact (List.append_nil _).symm
  | cons l lines ih =>
    rw [assemble, ih]
    cases l with
    | instruction i =>
      rw [Line.apply, Array.toList_push, List.map_append, List.append_assoc]
      rfl
    | _ => rfl

theorem globals_assemble :
    (assemble number lines image).globals = image.globals ++ lines.filterMap Line.exported? := by
  induction lines generalizing number image with
  | nil => exact (List.append_nil _).symm
  | cons l lines ih =>
    rw [assemble, ih]
    cases l with
    | global name =>
      rw [Line.apply, List.append_assoc]
      rfl
    | _ => rfl

theorem labels_assemble :
    (assemble number lines image).labels =
      image.labels ++ labelPlaces image.instructions.size lines := by
  induction lines generalizing number image with
  | nil => exact (List.append_nil _).symm
  | cons l lines ih =>
    rw [assemble, ih]
    cases l with
    | label name =>
      rw [Line.apply, List.append_assoc]
      rfl
    | instruction i =>
      rw [Line.apply, Array.size_push]
      rfl
    | _ => rfl

end Image

/-! ## Comments -/

theorem labelPlaces_filter (pos : Nat) (lines : List Line) :
    labelPlaces pos (lines.filter (!·.isComment)) = labelPlaces pos lines := by
  induction lines generalizing pos with
  | nil => rfl
  | cons l lines ih =>
    cases l with
    | label name => exact congrArg ((name, (pos : Int)) :: ·) (ih pos)
    | instruction i => exact ih (pos + 1)
    | _ => exact ih pos

theorem filterMap_filter_comment {α : Type} {f : Line → Option α}
    (hf : ∀ remark, f (.comment remark) = none) (lines : List Line) :
    (lines.filter (!·.isComment)).filterMap f = lines.filterMap f := by
  rw [List.filterMap_filter]
  refine List.filterMap_congr fun l _ => ?_
  cases l with
  | comment remark => exact (hf remark).symm
  | _ => rfl

theorem definedLabels_of_filter {lines lines' : List Line}
    (h : lines'.filter (!·.isComment) = lines.filter (!·.isComment)) :
    definedLabels lines' = definedLabels lines := by
  rw [definedLabels, ← filterMap_filter_comment (fun _ => rfl) lines', h,
    filterMap_filter_comment fun _ => rfl]
  rfl

/-- The same instructions, labels and symbols, from lines that may have other numbers. -/
structure Image.Agrees (image image' : Image) : Prop where
  instructions : image'.instructions.toList.map Placed.instruction =
    image.instructions.toList.map Placed.instruction
  labels : image'.labels = image.labels
  globals : image'.globals = image.globals

theorem agrees_assemble {lines lines' : List Line}
    (h : lines'.filter (!·.isComment) = lines.filter (!·.isComment)) (number : Nat)
    (image : Image) :
    (assemble number lines image).Agrees (assemble number lines' image) where
  instructions := by
    rw [instructions_assemble, instructions_assemble,
      ← filterMap_filter_comment (fun _ => rfl) lines', h, filterMap_filter_comment fun _ => rfl]
  labels := by
    rw [labels_assemble, labels_assemble, ← labelPlaces_filter _ lines', h, labelPlaces_filter]
  globals := by
    rw [globals_assemble, globals_assemble, ← filterMap_filter_comment (fun _ => rfl) lines', h,
      filterMap_filter_comment fun _ => rfl]

end Asm
end WordC
