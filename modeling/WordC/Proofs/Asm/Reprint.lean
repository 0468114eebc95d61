import WordC.Proofs.Asm.Admission
import WordC.Proofs.Asm.ReadBack
import WordC.Proofs.Text.Rune
/-!
Instructions are read back from their printed form.

An instruction may have been written in many ways: with any spacing, and with a
displacement in any base.  What was read is printed in one notation, and a line with
that text alone is read as the same instruction.  Registers and numbers are printed in
ASCII.  A jump shows its label as it was found, so there the white space of every
alphabet counts, and a label may be any text that the reader left over.
-/

namespace WordC
namespace Asm

/-! ## Operands -/

namespace Operand

theorem readable_of_readMemory {field : Text} {o : Operand} (h : Reader.readMemory field = .ok o) :
    o.Readable false := by
  unfold Reader.readMemory at h
  split at h
  · cases h
  · dsimp only at h
    split at h
    · cases h
    · next base hbase =>
      have hwide : base ∈ Register.wide := List.mem_of_find?_eq_some hbase
      split at h
      · cases h
        exact readable_memory hwide 0
      · split at h
        · cases h
          exact readable_memory hwide _
        · cases h

/-- What stands elsewhere than after a jump is printed as it can be read. -/
theorem readable_of_readOperand {field : Text} {o : Operand}
    (h : Reader.readOperand false field = .ok o) : o.Readable false := by
  unfold Reader.readOperand at h
  rw [if_neg Bool.false_ne_true] at h
  split at h
  · cases h
  · split at h
    · next r hr =>
      cases h
      exact readable_register (List.mem_of_find?_eq_some hr)
    · split at h
      · exact readable_of_readMemory h
      · split at h
        · cases h
        · split at h
          · cases h
            exact readable_immediate _
          · cases h

end Operand

/-! ## Instructions -/

namespace Reader

theorem readOperand_of_readOperands {jump : Bool} {fields : List Text} {os : List Operand}
    (h : readOperands jump fields = .ok os) :
    os.length = fields.length ∧
      ∀ o ∈ os, ∃ field ∈ fields, readOperand jump (Text.trim field) = .ok o := by
  induction fields generalizing os with
  | nil =>
    cases h
    exact ⟨rfl, List.forall_mem_nil _⟩
  | cons field fields ih =>
    obtain ⟨first, hfirst, h⟩ := bind_eq_ok h
    obtain ⟨others, hothers, h⟩ := bind_eq_ok h
    cases h
    obtain ⟨hlength, hfields⟩ := ih hothers
    refine ⟨by rw [List.length_cons, List.length_cons, hlength], ?_⟩
    refine List.forall_mem_cons.2 ⟨⟨field, List.mem_cons_self, hfirst⟩, fun o ho => ?_⟩
    obtain ⟨field', hmem, hread⟩ := hfields o ho
    exact ⟨field', List.mem_cons_of_mem field hmem, hread⟩

/-- A text that is not cut holds no separator. -/
theorem not_mem_of_splitOn {sep : UInt8} {t : Text} (h : (Text.splitOn sep t).length = 1) :
    sep ∉ t := by
  intro hmem
  obtain ⟨front, back, rfl, hfront⟩ := List.eq_append_cons_of_mem hmem
  rw [splitOn_append hfront, List.length_cons] at h
  exact Text.splitOn_ne_nil sep back (List.eq_nil_of_length_eq_zero (by omega))

/-- What follows the mnemonic, without white space around it. -/
def operandText (line : Text) (op : Mnemonic) : Text := Text.trim (line.drop (op.text.length + 1))

/-- How a line spells an instruction. -/
structure Spells (line : Text) (i : Instruction) : Prop where
  mnemonic : i.op ∈ Mnemonic.all
  name : line.takeWhile (· ≠ Byte.space) = i.op.text
  count : i.operands.length = i.op.arity
  operands : operandText line i.op = [] ∧ i.operands = [] ∨
    operandText line i.op ≠ [] ∧
      readOperands i.op.isJump ((operandText line i.op).splitOn Byte.comma) = .ok i.operands

/-- The check that ends the reading of an instruction changes nothing. -/
theorem eq_of_count {op : Mnemonic} {os : List Operand} {i : Instruction}
    {spot : ReadError.Spot}
    (h : (if os.length ≠ op.arity then (do throw spot; pure ⟨op, os⟩) else pure ⟨op, os⟩ :
      Read Instruction) = .ok i) : i = ⟨op, os⟩ := by
  split at h
  · cases h
  · cases h
    rfl

theorem spells_of_readInstruction {line : Text} {i : Instruction}
    (h : readInstruction line = .ok i) : Spells line i := by
  have hformed := readInstruction_formed h
  unfold readInstruction at h
  dsimp only at h
  split at h
  · cases h
  · next op hop =>
    have hname : line.takeWhile (· ≠ Byte.space) = op.text := by
      have hfound := List.find?_some hop
      exact (of_decide_eq_true hfound).symm
    rw [hname] at h
    split at h
    · next hempty =>
      obtain ⟨os, hos, h⟩ := bind_eq_ok h
      cases hos
      obtain rfl := eq_of_count h
      exact ⟨hformed.known, hname, hformed.count, .inl ⟨List.isEmpty_iff.1 hempty, rfl⟩⟩
    · next hempty =>
      obtain ⟨os, hos, h⟩ := bind_eq_ok h
      obtain rfl := eq_of_count h
      exact ⟨hformed.known, hname, hformed.count, .inr ⟨by simpa [operandText] using hempty, hos⟩⟩

/-- Without a jump, every operand is in a notation of its own. -/
theorem Spells.readable {line : Text} {i : Instruction} (h : Spells line i)
    (hjump : i.op.isJump = false) : i.Readable := by
  refine ⟨h.mnemonic, h.count, fun o ho => ?_⟩
  rcases h.operands with ⟨-, hnone⟩ | ⟨-, hread⟩
  · rw [hnone] at ho
    cases ho
  · obtain ⟨field, -, hfield⟩ := (readOperand_of_readOperands hread).2 o ho
    rw [hjump] at hfield ⊢
    exact Operand.readable_of_readOperand hfield

/-- After a jump stands one label, with no comma in it. -/
theorem Spells.jump {line : Text} {i : Instruction} (h : Spells line i)
    (hjump : i.op.isJump = true) :
    operandText line i.op ≠ [] ∧ Byte.comma ∉ operandText line i.op ∧
      i.operands = [.target (operandText line i.op)] := by
  have hone : i.operands.length = 1 := by
    have hall : ∀ m ∈ Mnemonic.all, m.isJump = true → m.arity = 1 := by decide
    rw [h.count, hall i.op h.mnemonic hjump]
  obtain ⟨o, ho⟩ := List.length_eq_one_iff.1 hone
  rcases h.operands with ⟨-, hnone⟩ | ⟨hne, hread⟩
  · rw [hnone] at hone
    cases hone
  · obtain ⟨hlength, hfields⟩ := readOperand_of_readOperands hread
    have hcomma := not_mem_of_splitOn (hlength.symm.trans hone)
    obtain ⟨field, hmem, hfield⟩ := hfields o (ho ▸ List.mem_singleton_self o)
    rw [splitOn_of_not_mem hcomma, List.mem_singleton] at hmem
    have htrim : Text.trim (operandText line i.op) = operandText line i.op :=
      (Text.tight_trim _).trim
    have hempty : (operandText line i.op).isEmpty = false := by simpa using hne
    rw [hmem, htrim, readOperand, hempty, hjump] at hfield
    refine ⟨hne, hcomma, ?_⟩
    rw [ho]
    cases hfield
    rfl

/-! ## Lines -/

theorem unhashed_significant (line : Text) : Byte.hash ∉ significant line := by
  intro hmem
  have hinside := (Text.trim_isInfix _).subset hmem
  simpa using List.mem_takeWhile_imp hinside

theorem instructions_of_readDirective {line : Text} {image image' : Image}
    (h : readDirective line image = .ok image') : image'.instructions = image.instructions := by
  unfold readDirective at h
  split at h
  · split at h
    · split at h
      · cases h
        rfl
      · cases h
    · cases h
      rfl
  · cases h
    rfl

/-- What is left of a line that gave an instruction. -/
theorem readInstruction_of_readLine {number : Nat} {line : Text} {image image' : Image}
    {p : Placed} (h : readLine number line image = .ok image')
    (hp : image'.instructions = image.instructions.push p) :
    readInstruction (significant line) = .ok p.instruction ∧
      (significant line).getLast? ≠ some Byte.colon := by
  have hgrown : image'.instructions ≠ image.instructions := by
    intro heq
    have hsize := congrArg Array.size (hp.symm.trans heq)
    rw [Array.size_push] at hsize
    omega
  unfold readLine readStatement at h
  dsimp only at h
  split at h
  · cases h
    exact absurd rfl hgrown
  · split at h
    · split at h
      · cases h
      · cases h
        exact absurd rfl hgrown
    · next hcolon =>
      split at h
      · exact absurd (instructions_of_readDirective h) hgrown
      · obtain ⟨i, hi, h⟩ := bind_eq_ok h
        cases h
        obtain rfl := (Array.push_inj_right).1 hp
        exact ⟨hi, hcolon⟩

/-- A line that is trimmed already and holds an instruction. -/
theorem readLine_instruction {t : Text} {i : Instruction} (htrim : Text.trim t = t)
    (hhash : Byte.hash ∉ t) (hcolon : t.getLast? ≠ some Byte.colon)
    (hdot : t.head? ≠ some Byte.dot) (hread : readInstruction t = .ok i) (number : Nat)
    (image : Image) :
    readLine number t image =
      .ok { image with instructions := image.instructions.push ⟨number, i⟩ } := by
  have hne : t ≠ [] := by
    rintro rfl
    cases hread
  have hsignificant : significant t = t := by
    rw [significant, takeWhile_ne_self hhash, htrim]
  rw [Line.readLine_significant hsignificant hne, readStatement, if_neg hcolon, if_neg hdot, hread]
  rfl

theorem readLine_readable {i : Instruction} (h : i.Readable) (number : Nat) (image : Image) :
    readLine number i.text image =
      .ok { image with instructions := image.instructions.push ⟨number, i⟩ } := by
  have htrimmed := Instruction.trimmed_text h
  exact readLine_instruction (htrimmed.trim 0) htrimmed.unhashed
    (fun heq => (htrimmed.last _ heq).2 rfl) (Instruction.head_text_ne_dot h.mnemonic)
    (Instruction.readInstruction_text h) number image

/-! ## Jumps -/

theorem ascii_front {op : Mnemonic} (h : op ∈ Mnemonic.all) :
    ∀ b ∈ op.text ++ [Byte.space], b.toNat < 128 := by
  have hall : ∀ op ∈ Mnemonic.all, (op.text ++ [Byte.space]).all (·.toNat < 128) = true := by decide
  exact Text.forall_mem_of_all (hall op h)

theorem visible_front {op : Mnemonic} (h : op ∈ Mnemonic.all) :
    ∃ b ∈ (op.text ++ [Byte.space]).head?, Text.IsVisible b := by
  obtain ⟨b, rest, hop⟩ := List.exists_cons_of_ne_nil (mnemonic_ne_nil h)
  have hletter := isLetter_mnemonic h b (hop ▸ List.mem_cons_self)
  refine ⟨b, by rw [hop]; rfl, (isPlain_namePart ?_).1⟩
  simp [Byte.isNamePart, hletter]

/-- A jump to any label that the reader leaves as it is. -/
theorem readLine_jump {op : Mnemonic} (hop : op ∈ Mnemonic.all) (hjump : op.isJump = true)
    {label : Text} (hne : label ≠ []) (htight : Text.Tight label) (hcomma : Byte.comma ∉ label)
    (hhash : Byte.hash ∉ label) (hcolon : label.getLast? ≠ some Byte.colon) (number : Nat)
    (image : Image) :
    readLine number (Instruction.text ⟨op, [.target label]⟩) image =
      .ok { image with instructions := image.instructions.push ⟨number, op, [.target label]⟩ } := by
  have htext : Instruction.text ⟨op, [.target label]⟩ = op.text ++ [Byte.space] ++ label := rfl
  have hletters := isLetter_mnemonic hop
  have hname : (op.text ++ [Byte.space] ++ label).takeWhile (· ≠ Byte.space) = op.text := by
    rw [List.append_assoc]
    exact takeWhile_ne_append (Instruction.not_mem_of_letters hletters (by decide)) label
  have hdrop : (op.text ++ [Byte.space] ++ label).drop (op.text.length + 1) = label := by
    rw [List.drop_left' (by rw [List.length_append]; rfl)]
  have hlast : (op.text ++ [Byte.space] ++ label).getLast? = label.getLast? := by
    rw [List.getLast?_append, List.getLast?_eq_some_getLast hne]
    rfl
  have hempty : label.isEmpty = false := by simpa using hne
  refine readLine_instruction ?_ ?_ ?_ (Instruction.head_text_ne_dot hop) ?_ number image
  · rw [htext]
    exact (htight.append_ascii hne (ascii_front hop) (visible_front hop)).trim
  · rw [htext]
    intro hmem
    rcases List.mem_append.1 hmem with hmem | hmem
    · rcases List.mem_append.1 hmem with hmem | hmem
      · exact Instruction.not_mem_of_letters hletters (by decide) hmem
      · exact absurd hmem (by decide)
    · exact hhash hmem
  · rw [htext, hlast]
    exact hcolon
  · rw [htext]
    refine Instruction.readInstruction_operands (by rw [hname]; exact ofText?_text hop)
      (by rw [hname, hdrop]; exact htight.trim) hne ?_ ?_
    · rw [splitOn_of_not_mem hcomma, readOperands, htight.trim, readOperand, hempty, hjump]
      rfl
    · have hall : ∀ m ∈ Mnemonic.all, m.isJump = true → 1 = m.arity := by decide
      exact hall op hop hjump

/-- What stands in front of the operands. -/
theorem Spells.split {line : Text} {i : Instruction} (h : Spells line i)
    (hne : operandText line i.op ≠ []) :
    ∃ tail, line = i.op.text ++ Byte.space :: tail ∧ operandText line i.op = Text.trim tail := by
  have hsplit := List.takeWhile_append_dropWhile (p := (· ≠ Byte.space)) (l := line)
  have hstop := List.head?_dropWhile_not (· ≠ Byte.space) line
  rw [h.name] at hsplit
  cases hdrop : line.dropWhile (· ≠ Byte.space) with
  | nil =>
    rw [hdrop, List.append_nil] at hsplit
    rw [operandText, ← hsplit, List.drop_eq_nil_of_le (Nat.le_succ _)] at hne
    exact absurd rfl hne
  | cons b tail =>
    rw [hdrop] at hsplit hstop
    obtain rfl : b = Byte.space := by simpa using hstop
    refine ⟨tail, hsplit.symm, ?_⟩
    rw [operandText, ← hsplit, List.drop_append, List.drop_eq_nil_of_le (Nat.le_succ _)]
    simp

/-- The label of a jump ends where the line ends. -/
theorem Spells.isSuffix {line : Text} {i : Instruction} (h : Spells line i) (hline : Text.Tight line)
    (hne : operandText line i.op ≠ []) : operandText line i.op <:+ line := by
  obtain ⟨tail, heq, hoperand⟩ := h.split hne
  rw [hoperand] at hne ⊢
  have hrunes : Text.runes line =
      (i.op.text ++ [Byte.space]).map Text.asciiRune ++ Text.runes tail := by
    rw [← Text.runes_ascii_append (ascii_front h.mnemonic), List.append_assoc, heq]
    rfl
  refine (Text.trim_isSuffix fun r hr => hline.last r ?_).trans ?_
  · rw [hrunes, List.getLast?_append]
    exact Option.or_eq_some_iff.2 (.inl hr)
  · rw [heq]
    exact ⟨i.op.text ++ [Byte.space], by simp⟩

end Reader

open Reader

/-- Whatever way an instruction was written, its text is a line that is read as the same
instruction. -/
theorem readLine_reprinted {number : Nat} {line : Text} {image image' : Image} {p : Placed}
    (h : readLine number line image = .ok image')
    (hp : image'.instructions = image.instructions.push p) (number' : Nat) (other : Image) :
    readLine number' p.instruction.text other =
      .ok { other with instructions := other.instructions.push ⟨number', p.instruction⟩ } := by
  obtain ⟨hread, hcolon⟩ := readInstruction_of_readLine h hp
  have hspells := spells_of_readInstruction hread
  cases hjump : p.instruction.op.isJump with
  | false => exact readLine_readable (hspells.readable hjump) number' other
  | true =>
    have htight : Text.Tight (significant line) := Text.tight_trim _
    obtain ⟨hne, hcomma, htarget⟩ := hspells.jump hjump
    have hsuffix := hspells.isSuffix htight hne
    have hhash := fun hmem => unhashed_significant line (hsuffix.subset hmem)
    have hlast : (operandText (significant line) p.instruction.op).getLast? ≠ some Byte.colon := by
      obtain ⟨front, hfront⟩ := hsuffix
      rw [← hfront, List.getLast?_append, List.getLast?_eq_some_getLast hne] at hcolon
      rwa [List.getLast?_eq_some_getLast hne]
    have hi : p.instruction =
        ⟨p.instruction.op, [.target (operandText (significant line) p.instruction.op)]⟩ := by
      rw [← htarget]
    rw [hi]
    exact readLine_jump hspells.mnemonic hjump hne (Text.tight_trim _) hcomma hhash hlast number'
      other

/-- Memory at the least displacement, in hexadecimal. -/
def spacedLine : Text := utf8 "\tmov  rax,[ rbp - 0x8000_0000_0000_0000 ] # least"

def leastMove : Instruction :=
  ⟨.mov, [.register .rax, .memory .rbp (-9223372036854775808)]⟩

theorem readLine_spacedLine_reprinted :
    readLine 7 spacedLine .empty = .ok ⟨#[⟨7, leastMove⟩], [], []⟩ ∧
      readLine 1 (utf8 "mov rax, [rbp-9223372036854775808]") .empty =
        .ok ⟨#[⟨1, leastMove⟩], [], []⟩ := by
  have hread : readLine 7 spacedLine .empty = .ok ⟨#[⟨7, leastMove⟩], [], []⟩ := by decide +kernel
  exact ⟨hread, readLine_reprinted hread rfl 1 .empty⟩

end Asm
end WordC
