import WordC.Asm.Reader
import WordC.Proofs.Text.Ascii
/-!
What the reader lets through.

An image that was read holds only instructions that the machine knows how to execute:
their mnemonics are those of the language, with as many operands as they take, and every
jump has a target.  `Adds` says once what a line does to the image; what holds of every
image is shown along it.
-/

namespace WordC
namespace Asm

/-- After a jump stands a label, and elsewhere a register of the language, a number, or
memory at a register of a full word. -/
def Operand.Fits (jump : Bool) (o : Operand) : Prop :=
  match o.form with
  | .label => jump = true
  | .register r => jump = false ∧ r ∈ Register.wide ++ [.al]
  | .immediate _ => jump = false
  | .memory base _ => jump = false ∧ base ∈ Register.wide
  | .other _ => False

structure Instruction.Formed (i : Instruction) : Prop where
  known : i.op ∈ Mnemonic.all
  count : i.operands.length = i.op.arity
  fits : ∀ o ∈ i.operands, o.Fits i.op.isJump

/-- What the machine relies on. -/
structure Image.Admitted (image : Image) : Prop where
  formed : ∀ p ∈ image.instructions.toList, p.instruction.Formed
  targets : ∀ p ∈ image.instructions.toList, p.instruction.op.isJump = true →
    ∀ o ∈ p.instruction.operands, ∃ pos, image.index? o.label = some pos
  labels : ∀ l ∈ image.labels, 0 ≤ l.2 ∧ l.2 ≤ image.instructions.size
  lines : image.instructions.toList.Pairwise (·.line < ·.line)

theorem Image.mem_of_fetch? {image : Image} {pc : Int} {p : Placed}
    (h : image.fetch? pc = some p) : p ∈ image.instructions.toList := by
  rw [fetch?] at h
  split at h
  · cases h
  · exact Array.mem_toList_iff.2 (Array.mem_of_getElem? h)

namespace Reader

/-! ## Parts that are there

A directive has a name, and a memory operand has both brackets. -/

theorem words_ne_nil {line : Text} (h : line.head? = some Byte.dot) : Text.words line ≠ [] := by
  obtain ⟨rest, rfl⟩ : ∃ rest, line = Byte.dot :: rest := by
    cases line with
    | nil => cases h
    | cons b rest => exact ⟨rest, by rw [Option.some.inj h]⟩
  have hblank : (Text.asciiRune Byte.dot).isBlank = false := by decide
  rw [Text.words, Text.runes, List.length_cons, Text.runesUpTo, Text.leadingRune_ascii (by decide)]
  unfold Text.wordsOf
  rw [hblank]
  split
  · next hfalse => cases hfalse
  · split
    · split <;> simp
    · simp

theorem two_le_length {field : Text} (hopen : field.head? = some Byte.leftBracket)
    (hclose : field.getLast? = some Byte.rightBracket) : 2 ≤ field.length := by
  match field, hopen, hclose with
  | [b], hopen, hclose =>
    rw [List.head?_cons, Option.some.injEq] at hopen
    rw [List.getLast?_singleton, Option.some.injEq, hopen] at hclose
    cases hclose
  | _ :: _ :: _, _, _ => simp

/-! ## Lines -/

theorem readMemory_fits {field : Text} {o : Operand} (h : readMemory field = .ok o) :
    o.Fits false := by
  unfold readMemory at h
  split at h
  · cases h
  · dsimp only at h
    split at h
    · cases h
    · next base hbase =>
      have hwide : base ∈ Register.wide := List.mem_of_find?_eq_some hbase
      split at h
      · cases h
        exact ⟨rfl, hwide⟩
      · split at h
        · cases h
          exact ⟨rfl, hwide⟩
        · cases h

theorem readOperand_fits {jump : Bool} {field : Text} {o : Operand}
    (h : readOperand jump field = .ok o) : o.Fits jump := by
  unfold readOperand at h
  split at h
  · cases h
  · split at h
    · next hjump =>
      cases h
      exact hjump
    · next hjump =>
      obtain rfl : jump = false := Bool.eq_false_iff.2 hjump
      split at h
      · next r hr =>
        cases h
        exact ⟨rfl, List.mem_of_find?_eq_some hr⟩
      · split at h
        · exact readMemory_fits h
        · split at h
          · cases h
          · split at h
            · cases h
              rfl
            · cases h

/-- What a reading in two steps shows of each of them. -/
theorem bind_eq_ok {α β : Type} {x : Read α} {f : α → Read β} {b : β} (h : (x >>= f) = .ok b) :
    ∃ a, x = .ok a ∧ f a = .ok b := by
  cases x with
  | error e => cases h
  | ok a => exact ⟨a, rfl, h⟩

theorem readOperands_fits {jump : Bool} {fields : List Text} {os : List Operand}
    (h : readOperands jump fields = .ok os) : ∀ o ∈ os, o.Fits jump := by
  induction fields generalizing os with
  | nil =>
    cases h
    exact List.forall_mem_nil _
  | cons field fields ih =>
    obtain ⟨first, hfirst, h⟩ := bind_eq_ok h
    obtain ⟨others, hothers, h⟩ := bind_eq_ok h
    cases h
    exact List.forall_mem_cons.2 ⟨readOperand_fits hfirst, ih hothers⟩

/-- The check that ends the reading of an instruction. -/
theorem formed_of_count {op : Mnemonic} {os : List Operand} {i : Instruction}
    {spot : ReadError.Spot} (hop : op ∈ Mnemonic.all) (hos : ∀ o ∈ os, o.Fits op.isJump)
    (h : (if os.length ≠ op.arity then (do throw spot; pure ⟨op, os⟩) else pure ⟨op, os⟩ :
      Read Instruction) = .ok i) : i.Formed := by
  split at h
  · cases h
  · next hcount =>
    cases h
    exact ⟨hop, Decidable.not_not.1 hcount, hos⟩

theorem readInstruction_formed {line : Text} {i : Instruction}
    (h : readInstruction line = .ok i) : i.Formed := by
  unfold readInstruction at h
  dsimp only at h
  split at h
  · cases h
  · next op hop =>
    have hknown : op ∈ Mnemonic.all := List.mem_of_find?_eq_some hop
    split at h
    · obtain ⟨os, hos, h⟩ := bind_eq_ok h
      cases hos
      exact formed_of_count hknown (List.forall_mem_nil _) h
    · obtain ⟨os, hos, h⟩ := bind_eq_ok h
      exact formed_of_count hknown (readOperands_fits hos) h

/-- What a line that is read adds to the image. -/
inductive Adds (number : Nat) (image : Image) : Image → Prop where
  | exports (globals : List Text) : Adds number image { image with globals := globals }
  | label {name : Text} : image.index? name = none →
      Adds number image
        { image with labels := image.labels ++ [(name, (image.instructions.size : Int))] }
  | instruction {i : Instruction} : i.Formed →
      Adds number image { image with instructions := image.instructions.push ⟨number, i⟩ }

theorem readDirective_adds {line : Text} {image image' : Image} (number : Nat)
    (h : readDirective line image = .ok image') : Adds number image image' := by
  unfold readDirective at h
  split at h
  · split at h
    · split at h
      · cases h
        exact .exports _
      · cases h
    · cases h
      exact .exports _
  · cases h
    exact .exports _

theorem readLine_adds {number : Nat} {line : Text} {image image' : Image}
    (h : readLine number line image = .ok image') : Adds number image image' := by
  unfold readLine readStatement at h
  dsimp only at h
  split at h
  · cases h
    exact .exports _
  · split at h
    · split at h
      · cases h
      · next hlabel =>
        cases h
        exact .label hlabel
    · split at h
      · exact readDirective_adds number h
      · obtain ⟨i, hi, h⟩ := bind_eq_ok h
        cases h
        exact .instruction (readInstruction_formed hi)

/-! ## Images -/

/-- What holds of an image when all lines before a number have been read. -/
structure ReadBefore (number : Nat) (image : Image) : Prop where
  formed : ∀ p ∈ image.instructions.toList, p.instruction.Formed
  labels : ∀ l ∈ image.labels, 0 ≤ l.2 ∧ l.2 ≤ image.instructions.size
  lines : image.instructions.toList.Pairwise (·.line < ·.line)
  range : ∀ p ∈ image.instructions.toList, 1 ≤ p.line ∧ p.line < number

theorem readBefore_empty : ReadBefore 1 .empty where
  formed := List.forall_mem_nil _
  labels := List.forall_mem_nil _
  lines := .nil
  range := List.forall_mem_nil _

theorem ReadBefore.adds {number : Nat} {image image' : Image} (h : ReadBefore number image)
    (hnumber : 1 ≤ number) (hadds : Adds number image image') : ReadBefore (number + 1) image' := by
  have hrange : ∀ p ∈ image.instructions.toList, 1 ≤ p.line ∧ p.line < (number + 1 : Nat) := by
    intro p hp
    have := h.range p hp
    omega
  cases hadds with
  | exports globals => exact ⟨h.formed, h.labels, h.lines, hrange⟩
  | label _ =>
    refine ⟨h.formed, fun l hl => ?_, h.lines, hrange⟩
    rcases List.mem_append.1 hl with hl | hl
    · exact h.labels l hl
    · rw [List.mem_singleton.1 hl]
      exact ⟨Int.natCast_nonneg _, Int.le_refl _⟩
  | @instruction i hi =>
    have hnew : 1 ≤ (number : Int) ∧ (number : Int) < (number + 1 : Nat) := by omega
    refine ⟨?_, fun l hl => ?_, ?_, ?_⟩
    · rw [Array.toList_push]
      exact List.forall_mem_append.2 ⟨h.formed, List.forall_mem_singleton.2 hi⟩
    · have hl := h.labels l hl
      rw [Array.size_push]
      omega
    · rw [Array.toList_push, List.pairwise_append]
      refine ⟨h.lines, List.pairwise_singleton _ _, fun p hp q hq => ?_⟩
      rw [List.mem_singleton.1 hq]
      exact (h.range p hp).2
    · rw [Array.toList_push]
      exact List.forall_mem_append.2 ⟨hrange, List.forall_mem_singleton.2 hnew⟩

/-- A reading keeps what holds of the image, and fails at a line that is too long or at
one that means nothing. -/
theorem readLines_cases {number : Nat} (lines : List Text) {image : Image}
    (h : ReadBefore number image) (hnumber : 1 ≤ number) :
    match readLines number lines image with
    | .ok image' => ReadBefore (number + lines.length) image'
    | .error .lineTooLong => ∃ line ∈ lines, lineLimit ≤ line.length
    | .error (.malformed n _) => 1 ≤ n ∧ n < (number + lines.length : Nat) := by
  induction lines generalizing number image with
  | nil => exact h
  | cons line lines ih =>
    rw [readLines, List.length_cons, ← Nat.add_assoc, Nat.add_right_comm]
    by_cases hlong : lineLimit ≤ line.length
    · rw [if_pos hlong]
      exact ⟨line, List.mem_cons_self, hlong⟩
    rw [if_neg hlong]
    cases hline : readLine number (dropReturn line) image with
    | error spot =>
      dsimp only
      omega
    | ok image' =>
      have hrest := ih (h.adds hnumber (readLine_adds hline)) (Nat.le_add_left 1 number)
      dsimp only
      split at hrest
      · exact hrest
      · obtain ⟨line', hline', hlong'⟩ := hrest
        exact ⟨line', List.mem_cons_of_mem line hline', hlong'⟩
      · exact hrest

theorem operand_of_jump {i : Instruction} (h : i.Formed) (hjump : i.op.isJump = true) :
    ∃ o, i.operands = [o] := by
  have harity : i.op.arity = 1 := by
    cases hop : i.op with
    | jmp | jumpIf c => rfl
    | _ =>
      rw [hop] at hjump
      cases hjump
  exact List.length_eq_one_iff.1 (h.count.trans harity)

/-- The jumps have targets. -/
theorem index?_of_undefinedJump? {image : Image} (h : undefinedJump? image = none) {p : Placed}
    (hp : p ∈ image.instructions.toList) (hformed : p.instruction.Formed)
    (hjump : p.instruction.op.isJump = true) :
    ∀ o ∈ p.instruction.operands, ∃ pos, image.index? o.label = some pos := by
  have hnone := List.findSome?_eq_none_iff.1 h p hp
  obtain ⟨o, ho⟩ := operand_of_jump hformed hjump
  rw [hjump, ho] at hnone
  rw [ho]
  intro o' ho'
  rw [List.mem_singleton.1 ho']
  dsimp only at hnone
  split at hnone
  · next hsome => exact Option.isSome_iff_exists.1 hsome
  · cases hnone

/-- A jump without a target is named with its line. -/
theorem line_of_undefinedJump? {image : Image} {e : ReadError} (h : undefinedJump? image = some e) :
    ∃ p ∈ image.instructions.toList, ∃ spot, e = .malformed p.line spot := by
  obtain ⟨p, hp, he⟩ := List.exists_of_findSome?_eq_some h
  refine ⟨p, hp, ?_⟩
  split at he
  · split at he
    · cases he
    · exact ⟨_, (Option.some.inj he).symm⟩
  · cases he

end Reader

namespace Image

/-- What comes of a text: an image that the machine can rely on, a line that is too long,
or the number of a line that means nothing. -/
theorem parse_cases (text : Text) :
    match Image.parse text with
    | .ok image => image.Admitted
    | .error .lineTooLong => ∃ line ∈ text.splitOn Byte.newline, Reader.lineLimit ≤ line.length
    | .error (.malformed n _) => 1 ≤ n ∧ n ≤ (text.splitOn Byte.newline).length := by
  have hlines := Reader.readLines_cases (text.splitOn Byte.newline) Reader.readBefore_empty
    (Nat.le_refl 1)
  rw [parse]
  cases hread : Reader.readLines 1 (text.splitOn Byte.newline) .empty with
  | error e =>
    rw [hread] at hlines
    cases e with
    | lineTooLong => exact hlines
    | malformed n spot =>
      dsimp only at hlines ⊢
      omega
  | ok image =>
    rw [hread] at hlines
    dsimp only
    cases hjumps : Reader.undefinedJump? image with
    | none =>
      exact ⟨hlines.formed, fun p hp hjump =>
        Reader.index?_of_undefinedJump? hjumps hp (hlines.formed p hp) hjump, hlines.labels,
        hlines.lines⟩
    | some e =>
      obtain ⟨p, hp, spot, rfl⟩ := Reader.line_of_undefinedJump? hjumps
      have hrange := hlines.range p hp
      dsimp only
      omega

theorem admitted_of_parse {text : Text} {image : Image} (h : Image.parse text = .ok image) :
    image.Admitted := by
  have hcases := parse_cases text
  rw [h] at hcases
  exact hcases

end Image
end Asm
end WordC
