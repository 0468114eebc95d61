import WordC.Proofs.Asm.ReadBack
/-!
The image of a file of lines.

A file of readable lines whose labels are distinct and whose jumps have targets is
read as the image that `assemble` builds from the lines themselves.  `Holds` says
where the lines stand in it.  The reader refuses a file whose labels are not distinct,
so that nothing else can be read from it.
-/

namespace WordC
namespace Asm

/-- The lines of a written file, with the empty one after the last line break. -/
theorem splitOn_render {lines : List Line} (h : ∀ l ∈ lines, l.Readable) :
    Text.splitOn Byte.newline (render lines) = lines.map Line.bare ++ [[]] := by
  induction lines with
  | nil => rfl
  | cons l lines ih =>
    have hl := Line.newline_not_mem_bare (h l List.mem_cons_self)
    have hrest := ih fun l' hl' => h l' (List.mem_cons_of_mem l hl')
    have hrender : render (l :: lines) = l.bare ++ Byte.newline :: render lines := by
      rw [render, List.flatMap_cons, Line.text_eq_bare, List.append_assoc]
      rfl
    rw [hrender, splitOn_append hl, hrest, List.map_cons, List.cons_append]

/-- The image that lines make when they are added to another, the first of them under
a number. -/
def assemble : Nat → List Line → Image → Image
  | _, [], image => image
  | number, l :: lines, image => assemble (number + 1) lines (l.apply number image)

/-- The labels that lines define. -/
def definedLabels (lines : List Line) : List Text := lines.filterMap Line.label?

theorem definedLabels_cons (l : Line) (lines : List Line) :
    definedLabels (l :: lines) = l.label?.toList ++ definedLabels lines := by
  cases l with
  | _ => rfl

theorem definedLabels_append (xs ys : List Line) :
    definedLabels (xs ++ ys) = definedLabels xs ++ definedLabels ys :=
  List.filterMap_append

/-- The labels of the lines are distinct, and new to the image. -/
structure Fresh (lines : List Line) (image : Image) : Prop where
  nodup : (definedLabels lines).Nodup
  unknown : ∀ name ∈ definedLabels lines, image.index? name = none

namespace Fresh

variable {l : Line} {lines : List Line} {image : Image}

theorem head (h : Fresh (l :: lines) image) {name : Text} (hl : l = .label name) :
    image.index? name = none := by
  refine h.unknown name ?_
  rw [definedLabels_cons, hl]
  exact List.mem_append_left _ (List.mem_singleton_self name)

theorem tail (h : Fresh (l :: lines) image) (number : Nat) : Fresh lines (l.apply number image) := by
  obtain ⟨hnodup, hunknown⟩ := h
  rw [definedLabels_cons] at hnodup hunknown
  refine ⟨(List.nodup_append.1 hnodup).2.1, fun name hname => ?_⟩
  have hold := hunknown name (List.mem_append_right _ hname)
  cases l with
  | label other =>
    have hne : ¬ name = other := fun heq =>
      (List.nodup_append.1 hnodup).2.2 other (List.mem_singleton_self other) name hname heq.symm
    rw [Image.index?] at hold ⊢
    simp [Line.apply, List.lookup_append, hold, hne]
  | _ => exact hold

end Fresh

theorem readLines_bare {lines : List Line} (hread : ∀ l ∈ lines, l.Readable)
    (hshort : ∀ l ∈ lines, l.bare.length < Reader.lineLimit) (number : Nat) {image : Image}
    (hfresh : Fresh lines image) :
    Reader.readLines number (lines.map Line.bare ++ [[]]) image =
      .ok (assemble number lines image) := by
  induction lines generalizing number image with
  | nil =>
    rw [List.map_nil, List.nil_append, Reader.readLines, if_neg (by decide)]
    rfl
  | cons l lines ih =>
    rw [List.map_cons, List.cons_append, Reader.readLines,
      if_neg (Nat.not_le.2 (hshort l List.mem_cons_self)),
      Line.readLine_bare (hread l List.mem_cons_self) number fun _ => hfresh.head]
    exact ih (fun l' hl' => hread l' (List.mem_cons_of_mem l hl'))
      (fun l' hl' => hshort l' (List.mem_cons_of_mem l hl')) (number + 1) (hfresh.tail number)

/-! ## What an image holds -/

namespace Image

/-- The lines stand in the image from an index on: the instructions one after the other,
and every label at the instruction that follows it. -/
def Holds (image : Image) : Nat → List Line → Prop
  | _, [] => True
  | pos, .instruction i :: lines =>
    (∃ p, image.fetch? pos = some p ∧ p.instruction = i) ∧ image.Holds (pos + 1) lines
  | pos, .label name :: lines => image.index? name = some (pos : Int) ∧ image.Holds pos lines
  | pos, _ :: lines => image.Holds pos lines

theorem fetch?_assemble {image : Image} {pc : Int} {p : Placed} (h : image.fetch? pc = some p)
    (number : Nat) (lines : List Line) : (assemble number lines image).fetch? pc = some p := by
  induction lines generalizing number image with
  | nil => exact h
  | cons l lines ih =>
    refine ih ?_ (number + 1)
    cases l with
    | instruction i =>
      rw [fetch?] at h ⊢
      split at h
      · cases h
      · next hpc =>
        have hlt := (Array.getElem?_eq_some_iff.1 h).1
        rw [if_neg hpc, Line.apply, Array.getElem?_push_lt hlt, ← Array.getElem?_eq_getElem hlt, h]
    | _ => exact h

theorem index?_assemble {image : Image} {name : Text} {pos : Int}
    (h : image.index? name = some pos) (number : Nat) (lines : List Line) :
    (assemble number lines image).index? name = some pos := by
  induction lines generalizing number image with
  | nil => exact h
  | cons l lines ih =>
    refine ih ?_ (number + 1)
    cases l with
    | label other =>
      rw [index?] at h ⊢
      simp [Line.apply, List.lookup_append, h]
    | _ => exact h

theorem holds_assemble {lines : List Line} (number : Nat) {image : Image}
    (hfresh : Fresh lines image) :
    (assemble number lines image).Holds image.instructions.size lines := by
  induction lines generalizing number image with
  | nil => trivial
  | cons l lines ih =>
    have hrest := ih (number + 1) (hfresh.tail number)
    cases l with
    | instruction i =>
      have hfetch : ((Line.instruction i).apply number image).fetch? image.instructions.size =
          some ⟨number, i⟩ := by
        simp [fetch?, Line.apply]
      refine ⟨⟨_, fetch?_assemble hfetch (number + 1) lines, rfl⟩, ?_⟩
      rw [Line.apply, Array.size_push] at hrest
      exact hrest
    | label name =>
      have hindex : ((Line.label name).apply number image).index? name =
          some (image.instructions.size : Int) := by
        have hname := hfresh.head rfl
        rw [index?] at hname ⊢
        simp [Line.apply, List.lookup_append, hname]
      exact ⟨index?_assemble hindex (number + 1) lines, hrest⟩
    | intelNotation => exact hrest
    | global name => exact hrest
    | comment remark => exact hrest

theorem Holds.index? {image : Image} {pos : Nat} {lines : List Line} (h : image.Holds pos lines)
    {name : Text} (hname : name ∈ definedLabels lines) : (image.index? name).isSome = true := by
  induction lines generalizing pos with
  | nil => cases hname
  | cons l lines ih =>
    rw [definedLabels_cons] at hname
    cases l with
    | instruction i => exact ih h.2 hname
    | label other =>
      rcases List.mem_append.1 hname with hname | hname
      · rw [List.mem_singleton.1 hname, h.1]
        rfl
      · exact ih h.2 hname
    | intelNotation => exact ih h hname
    | global other => exact ih h hname
    | comment remark => exact ih h hname

end Image

/-- The label that the line jumps to. -/
def Line.target? : Line → Option Text
  | instruction ⟨op, o :: _⟩ => if op.isJump then some o.label else none
  | _ => none

theorem mem_instructions_assemble {number : Nat} {lines : List Line} {image : Image} {p : Placed}
    (hp : p ∈ (assemble number lines image).instructions.toList) :
    p ∈ image.instructions.toList ∨ .instruction p.instruction ∈ lines := by
  induction lines generalizing number image with
  | nil => exact .inl hp
  | cons l lines ih =>
    rcases ih hp with hmem | hmem
    · cases l with
      | instruction i =>
        rw [Line.apply, Array.toList_push] at hmem
        rcases List.mem_append.1 hmem with hmem | hmem
        · exact .inl hmem
        · rw [List.mem_singleton.1 hmem]
          exact .inr List.mem_cons_self
      | _ => exact .inl hmem
    · exact .inr (List.mem_cons_of_mem l hmem)

theorem undefinedJump?_eq_none {image : Image}
    (h : ∀ p ∈ image.instructions.toList, ∀ name ∈ (Line.instruction p.instruction).target?,
      (image.index? name).isSome = true) : Reader.undefinedJump? image = none := by
  rw [Reader.undefinedJump?, List.findSome?_eq_none_iff]
  intro p hp
  have htarget := h p hp
  obtain ⟨line, op, operands⟩ := p
  cases operands with
  | nil => cases op.isJump with
    | _ => rfl
  | cons o os =>
    cases hjump : op.isJump with
    | false => rfl
    | true =>
      have hsome := htarget o.label (by simp [Line.target?, hjump])
      simp [hsome]

/-- A file of readable lines is read as the image of its lines. -/
theorem parse_render {lines : List Line} (hread : ∀ l ∈ lines, l.Readable)
    (hshort : ∀ line ∈ Text.splitOn Byte.newline (render lines), line.length < Reader.lineLimit)
    (hlabels : (definedLabels lines).Nodup)
    (htargets : ∀ l ∈ lines, ∀ name ∈ l.target?, name ∈ definedLabels lines) :
    Image.parse (render lines) = .ok (assemble 1 lines .empty) := by
  have hfresh : Fresh lines .empty := ⟨hlabels, fun _ _ => rfl⟩
  have hholds : (assemble 1 lines .empty).Holds 0 lines := Image.holds_assemble 1 hfresh
  have hlines := splitOn_render hread
  have hshort' : ∀ l ∈ lines, l.bare.length < Reader.lineLimit := by
    intro l hl
    refine hshort l.bare ?_
    rw [hlines]
    exact List.mem_append_left _ (List.mem_map_of_mem hl)
  have hjumps : Reader.undefinedJump? (assemble 1 lines .empty) = none := by
    refine undefinedJump?_eq_none fun p hp name hname => hholds.index? ?_
    rcases mem_instructions_assemble hp with hmem | hmem
    · cases hmem
    · exact htargets _ hmem name hname
  rw [Image.parse, hlines, readLines_bare hread hshort' 1 hfresh]
  simp only [hjumps]

/-! ## What a reading shows of the file -/

theorem length_of_readLines {number : Nat} {lines : List Text} {image image' : Image}
    (h : Reader.readLines number lines image = .ok image') :
    ∀ line ∈ lines, line.length < Reader.lineLimit := by
  induction lines generalizing number image with
  | nil => nofun
  | cons line lines ih =>
    rw [Reader.readLines] at h
    split at h
    · cases h
    · next hlength =>
      split at h
      · cases h
      · exact List.forall_mem_cons.2 ⟨Nat.not_le.1 hlength, ih h⟩

theorem index?_of_readLine {name : Text} (h : (Line.label name).Readable) {number : Nat}
    {image image' : Image}
    (hread : Reader.readLine number (Reader.dropReturn (Line.label name).bare) image = .ok image') :
    image.index? name = none := by
  rw [Line.bare, Line.readLine_label h.1 h.2] at hread
  cases hindex : image.index? name with
  | none => rfl
  | some pos =>
    rw [hindex] at hread
    cases hread

theorem Fresh.cons {l : Line} {lines : List Line} {image : Image} {number : Nat}
    (hl : ∀ name, l = .label name → image.index? name = none)
    (h : Fresh lines (l.apply number image)) : Fresh (l :: lines) image := by
  cases l with
  | label other =>
    have hother := hl other rfl
    have hindex : ∀ name ∈ definedLabels lines, image.index? name = none ∧ name ≠ other := by
      intro name hname
      have hnone := h.unknown name hname
      rw [Image.index?, Line.apply, List.lookup_append, Option.or_eq_none_iff] at hnone
      refine ⟨hnone.1, fun heq => ?_⟩
      rw [heq, List.lookup_cons_self] at hnone
      cases hnone.2
    refine ⟨List.nodup_cons.2 ⟨fun hmem => (hindex other hmem).2 rfl, h.nodup⟩, ?_⟩
    exact List.forall_mem_cons.2 ⟨hother, fun name hname => (hindex name hname).1⟩
  | _ => exact ⟨h.nodup, h.unknown⟩

theorem fresh_of_readLines {lines : List Line} (hread : ∀ l ∈ lines, l.Readable) {number : Nat}
    {image image' : Image}
    (h : Reader.readLines number (lines.map Line.bare ++ [[]]) image = .ok image') :
    Fresh lines image := by
  induction lines generalizing number image with
  | nil => exact ⟨List.nodup_nil, nofun⟩
  | cons l lines ih =>
    rw [List.map_cons, List.cons_append, Reader.readLines] at h
    split at h
    · cases h
    · split at h
      · cases h
      · next image₁ hline =>
        have hl : ∀ name, l = .label name → image.index? name = none := by
          rintro name rfl
          exact index?_of_readLine (hread _ List.mem_cons_self) hline
        rw [Line.readLine_bare (hread l List.mem_cons_self) number hl] at hline
        cases hline
        exact .cons hl (ih (fun l' hl' => hread l' (List.mem_cons_of_mem l hl')) h)

/-- A file that is read has distinct labels and no line that is too long. -/
theorem nodup_of_parse {lines : List Line} (hread : ∀ l ∈ lines, l.Readable) {image : Image}
    (h : Image.parse (render lines) = .ok image) :
    (definedLabels lines).Nodup ∧
      ∀ line ∈ Text.splitOn Byte.newline (render lines), line.length < Reader.lineLimit := by
  rw [Image.parse] at h
  split at h
  · cases h
  · next image' hlines =>
    refine ⟨?_, length_of_readLines hlines⟩
    rw [splitOn_render hread] at hlines
    exact (fresh_of_readLines hread hlines).nodup

/-- Besides a line that is too long, only a label that is defined twice stops the reading. -/
theorem readLines_refused {lines : List Line} (hread : ∀ l ∈ lines, l.Readable) {number : Nat}
    {image : Image} {e : ReadError}
    (h : Reader.readLines number (lines.map Line.bare ++ [[]]) image = .error e) :
    (e = .lineTooLong ∧ ∃ l ∈ lines, Reader.lineLimit ≤ l.bare.length) ∨ ∃ line name,
      e = .malformed line ⟨name ++ [Byte.colon], .duplicateLabel name⟩ ∧
      1 < (image.labels.map Prod.fst ++ definedLabels lines).count name := by
  induction lines generalizing number image with
  | nil =>
    rw [List.map_nil, List.nil_append, Reader.readLines, if_neg (by decide)] at h
    cases h
  | cons l lines ih =>
    have hrest := fun l' hl' => hread l' (List.mem_cons_of_mem l hl')
    rw [List.map_cons, List.cons_append, Reader.readLines] at h
    by_cases hlong : Reader.lineLimit ≤ l.bare.length
    · rw [if_pos hlong] at h
      cases h
      exact .inl ⟨rfl, l, List.mem_cons_self, hlong⟩
    rw [if_neg hlong] at h
    by_cases hknown : ∃ name, l = .label name ∧ image.index? name ≠ none
    · obtain ⟨name, rfl, hindex⟩ := hknown
      have hname := hread _ List.mem_cons_self
      obtain ⟨pos, hpos⟩ := Option.ne_none_iff_exists'.1 hindex
      rw [Line.bare, Line.readLine_label hname.1 hname.2, hpos] at h
      cases h
      refine .inr ⟨number, name, rfl, ?_⟩
      have hmem : name ∈ image.labels.map Prod.fst := by
        obtain ⟨before, after, hlabels, -⟩ := List.lookup_eq_some_iff.1 hpos
        simp [hlabels]
      have hcount := List.count_pos_iff.2 hmem
      rw [definedLabels_cons, List.count_append, Line.label?, Option.toList_some,
        List.singleton_append, List.count_cons_self]
      omega
    · have hl : ∀ name, l = .label name → image.index? name = none := fun name hname =>
        Classical.byContradiction fun hindex => hknown ⟨name, hname, hindex⟩
      rw [Line.readLine_bare (hread l List.mem_cons_self) number hl] at h
      have hlabels : (l.apply number image).labels.map Prod.fst ++ definedLabels lines =
          image.labels.map Prod.fst ++ definedLabels (l :: lines) := by
        rw [definedLabels_cons]
        cases l with
        | label name => simp [Line.apply, Line.label?]
        | _ => rfl
      rw [← hlabels]
      rcases ih hrest h with ⟨rfl, l', hl', hlong'⟩ | htwice
      · exact .inl ⟨rfl, l', List.mem_cons_of_mem l hl', hlong'⟩
      · exact .inr htwice

/-- The only ways in which a file of readable lines with all its targets is refused. -/
theorem parse_refused {lines : List Line} (hread : ∀ l ∈ lines, l.Readable)
    (htargets : ∀ l ∈ lines, ∀ name ∈ l.target?, name ∈ definedLabels lines) {e : ReadError}
    (h : Image.parse (render lines) = .error e) :
    (e = .lineTooLong ∧
      ∃ line ∈ Text.splitOn Byte.newline (render lines), Reader.lineLimit ≤ line.length) ∨
    ∃ line name,
      e = .malformed line ⟨name ++ [Byte.colon], .duplicateLabel name⟩ ∧
      1 < (definedLabels lines).count name := by
  cases hlines : Reader.readLines 1 (Text.splitOn Byte.newline (render lines)) .empty with
  | error e' =>
    rw [Image.parse, hlines] at h
    cases h
    rw [splitOn_render hread] at hlines ⊢
    rcases readLines_refused hread hlines with ⟨rfl, l, hl, hlong⟩ | htwice
    · exact .inl ⟨rfl, l.bare, List.mem_append_left _ (List.mem_map_of_mem hl), hlong⟩
    · exact .inr htwice
  | ok image =>
    have hshort := length_of_readLines hlines
    rw [splitOn_render hread] at hlines
    have hnodup := (fresh_of_readLines hread hlines).nodup
    cases h.symm.trans (parse_render hread hshort hnodup htargets)

end Asm
end WordC
