import WordC.Asm.Reader
import WordC.Proofs.Text.Ascii
import WordC.Proofs.Text.Number
/-!
Assembly text is read back as it was written.

`Readable` says of operands, instructions and lines that their text can carry them:
a line break inside a comment, or a comma inside a label, would be read as something
else.  A readable line is read as what it adds to an image.
-/

namespace WordC
namespace Asm

/-- A byte with no meaning of its own to the reader. -/
def IsPlain (b : UInt8) : Prop :=
  Text.IsVisible b ∧ b ≠ Byte.comma ∧ b ≠ Byte.hash ∧ b ≠ Byte.colon

instance (b : UInt8) : Decidable (IsPlain b) := inferInstanceAs (Decidable (_ ∧ _))

theorem IsPlain.ascii {b : UInt8} (h : IsPlain b) : b.toNat < 128 :=
  Nat.lt_of_le_of_lt h.1.2 (by omega)

theorem isPlain_namePart {b : UInt8} (h : Byte.isNamePart b = true) : IsPlain b := by
  simp only [Byte.isNamePart, Byte.isLetter, Byte.isUnderscore, Byte.underscore, Byte.isDigit,
    Bool.or_eq_true, Bool.and_eq_true, decide_eq_true_eq, UInt8.le_iff_toNat_le,
    ← UInt8.toNat_inj, UInt8.reduceToNat] at h
  simp only [IsPlain, Text.IsVisible, ne_eq, Byte.comma, Byte.hash, Byte.colon, ← UInt8.toNat_inj,
    UInt8.reduceToNat]
  omega

theorem trim_plain {t : Text} (h : ∀ b ∈ t, IsPlain b) (n : Nat) :
    Text.trim (Text.spaces n ++ t) = t :=
  Text.trim_spaces n (fun b hb => (h b hb).ascii) (fun b hb => (h b (List.mem_of_head? hb)).1)
    fun b hb => (h b (List.mem_of_getLast? hb)).1

/-! ## Operands -/

namespace Operand

/-- The operand can be recovered from its text. -/
structure Readable (jump : Bool) (o : Operand) : Prop where
  reads : Reader.readOperand jump o.text = .ok o
  nonempty : o.text ≠ []
  plain : ∀ b ∈ o.text, IsPlain b

theorem readable_register {r : Register} (h : r ∈ Register.wide ++ [.al]) :
    (register r).Readable false := by
  simp only [Register.wide, List.cons_append, List.nil_append, List.mem_cons, List.not_mem_nil,
    or_false] at h
  rcases h with rfl | rfl | rfl | rfl | rfl | rfl | rfl | rfl | rfl
  all_goals exact ⟨rfl, by decide, Text.forall_mem_of_all (by decide)⟩

/-- A written word is a digit or a minus sign, and digits. -/
theorem ofWord_cons (value : Word) :
    ∃ b rest, Text.ofWord value = b :: rest ∧ (Byte.isDigit b = true ∨ b = Byte.minus) ∧
      rest.all Byte.isDigit = true ∧ (b = Byte.minus → rest ≠ []) := by
  have hdigits := Text.all_isDigit_ofNat value.toInt.natAbs
  have hne := Text.ofNat_ne_nil value.toInt.natAbs
  rw [Text.ofWord, Text.ofInt, Text.signed, ← Text.ofNat]
  split
  · exact ⟨_, _, rfl, .inr rfl, hdigits, fun _ => hne⟩
  · cases hcons : Text.ofNat value.toInt.natAbs with
    | nil => exact absurd hcons hne
    | cons b rest =>
      rw [hcons, List.all_cons, Bool.and_eq_true] at hdigits
      refine ⟨b, rest, rfl, .inl hdigits.1, hdigits.2, ?_⟩
      intro hb
      exact absurd (hb ▸ hdigits.1) (by decide)

theorem isSignedNumber_ofWord (value : Word) : (Text.ofWord value).isSignedNumber = true := by
  obtain ⟨b, rest, htext, hb, hrest, hne⟩ := ofWord_cons value
  rw [htext]
  by_cases hminus : b = Byte.minus
  · subst hminus
    have hempty : rest.isEmpty = false := by simpa using hne rfl
    change (!rest.isEmpty && rest.all Byte.isDigit) = true
    rw [hempty, hrest]
    rfl
  · have hdigit := hb.resolve_right hminus
    have hbody : Text.isSignedNumber (b :: rest) =
        (!(b :: rest).isEmpty && (b :: rest).all Byte.isDigit) := by
      unfold Text.isSignedNumber
      split
      · next rest' heq => exact absurd (List.cons.inj heq).1 hminus
      · rfl
    rw [hbody, List.all_cons, hdigit, hrest]
    rfl

/-- The registers start with one of two letters. -/
theorem ofText?_eq_none {b : UInt8} (hb : b ≠ 114 ∧ b ≠ 97) (rest : Text) :
    Register.ofText? (b :: rest) = none := by
  have hletter : ∀ r ∈ Register.wide ++ [.al], r.text.head? = some 114 ∨ r.text.head? = some 97 := by
    decide
  rw [Register.ofText?, List.find?_eq_none]
  intro r hr heq
  have hhead : r.text.head? = some b := by
    rw [of_decide_eq_true heq]
    rfl
  rcases hletter r hr with h | h
  · exact hb.1 (Option.some.inj (hhead.symm.trans h))
  · exact hb.2 (Option.some.inj (hhead.symm.trans h))

theorem ofText?_ofWord (value : Word) : Register.ofText? (Text.ofWord value) = none := by
  obtain ⟨b, rest, htext, hb, -, -⟩ := ofWord_cons value
  rw [htext]
  refine ofText?_eq_none ⟨?_, ?_⟩ rest
  · rintro rfl
    exact absurd hb (by decide)
  · rintro rfl
    exact absurd hb (by decide)

theorem readable_immediate (value : Word) : (immediate value).Readable false := by
  obtain ⟨b, rest, htext, hb, hrest, -⟩ := ofWord_cons value
  have hplain : IsPlain b := by
    rcases hb with hb | rfl
    · exact isPlain_namePart (by simp [Byte.isNamePart, hb])
    · decide
  have hhead : ¬ (Text.ofWord value).head? = some Byte.leftBracket := by
    rw [htext]
    intro hbracket
    obtain rfl : b = Byte.leftBracket := Option.some.inj hbracket
    exact absurd hb (by decide)
  refine ⟨?_, ?_, ?_⟩
  · have hempty : (Text.ofWord value).isEmpty = false := by
      rw [htext]
      rfl
    change Reader.readOperand false (Text.ofWord value) = _
    simp [Reader.readOperand, hempty, ofText?_ofWord, hhead, isSignedNumber_ofWord,
      Text.readDecimal_ofWord]
  · change Text.ofWord value ≠ []
    rw [htext]
    exact List.cons_ne_nil b rest
  · change ∀ c ∈ Text.ofWord value, IsPlain c
    rw [htext]
    refine List.forall_mem_cons.2 ⟨hplain, fun c hc => ?_⟩
    exact isPlain_namePart (by simp [Byte.isNamePart, List.all_eq_true.1 hrest c hc])

/-- The part of a memory operand between its base and its end. -/
def shift (offset : Word) : Text :=
  if offset = 0 then []
  else if offset < 0 then Text.ofWord offset
  else Byte.plus :: Text.ofWord offset

theorem text_memory (base : Register) (offset : Word) :
    (memory base offset).text =
      Byte.leftBracket :: (base.text ++ shift offset ++ [Byte.rightBracket]) := rfl

theorem lt_zero_iff {w : Word} : w < 0 ↔ w.toInt < 0 := Int64.lt_iff_toInt_lt

/-- The sign that is shown. -/
def sign (offset : Word) : UInt8 := if offset < 0 then Byte.minus else Byte.plus

theorem shift_eq {offset : Word} (h : offset ≠ 0) :
    shift offset = sign offset :: Text.ofNat offset.toInt.natAbs := by
  rw [shift, if_neg h, sign, Text.ofWord, Text.ofInt, Text.signed, ← Text.ofNat]
  by_cases hneg : offset < 0
  · rw [if_pos hneg, if_pos hneg, if_pos (lt_zero_iff.1 hneg)]
  · rw [if_neg hneg, if_neg hneg, if_neg fun h => hneg (lt_zero_iff.2 h)]

theorem readInteger_shift {offset : Word} (h : offset ≠ 0) :
    Text.readInteger (shift offset) = .ok offset := by
  rw [shift_eq h, sign]
  split
  · next hneg =>
    rw [lt_zero_iff] at hneg
    refine Text.readInteger_natAbs h (Text.splitSign_minus _) ?_
    rw [if_pos rfl]
    omega
  · next hneg =>
    rw [lt_zero_iff] at hneg
    refine Text.readInteger_natAbs h (Text.splitSign_plus _) ?_
    rw [if_neg Bool.false_ne_true]
    omega

theorem isPlain_sign (offset : Word) : IsPlain (sign offset) := by
  rw [sign]
  split
  · decide
  · decide

theorem isPlain_shift (offset : Word) : ∀ b ∈ shift offset, IsPlain b := by
  by_cases h : offset = 0
  · rw [shift, if_pos h]
    exact List.forall_mem_nil _
  · rw [shift_eq h]
    refine List.forall_mem_cons.2 ⟨isPlain_sign offset, fun b hb => isPlain_namePart ?_⟩
    simp [Byte.isNamePart, Text.isDigit_ofNat hb]

/-- The base ends where the sign stands. -/
theorem splitOffset_shift {base : Text} (hne : base ≠ [])
    (hbase : ∀ b ∈ base, b ≠ Byte.plus ∧ b ≠ Byte.minus) (offset : Word) :
    Reader.splitOffset (base ++ shift offset) = (base, shift offset) := by
  have hunsigned : ∀ b ∈ base, (!(decide (b = Byte.plus) || decide (b = Byte.minus))) = true := by
    intro b hb
    simp [hbase b hb]
  have hempty : base.isEmpty = false := by simpa using hne
  rw [Reader.splitOffset]
  dsimp only
  rw [List.takeWhile_append_of_pos hunsigned, List.dropWhile_append_of_pos hunsigned]
  by_cases hzero : offset = 0
  · simp [shift, hzero, hempty]
  · have hsign : sign offset = Byte.plus ∨ sign offset = Byte.minus := by
      rw [sign]
      split
      · exact .inr rfl
      · exact .inl rfl
    rw [shift_eq hzero]
    rcases hsign with hsign | hsign
    · simp [hsign, hempty]
    · simp [hsign, hempty]

theorem isPlain_register {r : Register} (h : r ∈ Register.wide) : ∀ b ∈ r.text, IsPlain b := by
  have hall : ∀ r ∈ Register.wide, r.text.all (IsPlain ·) = true := by decide
  exact Text.forall_mem_of_all (hall r h)

theorem register_ne_nil {r : Register} (h : r ∈ Register.wide) : r.text ≠ [] := by
  have hall : ∀ r ∈ Register.wide, r.text ≠ [] := by decide
  exact hall r h

theorem unsigned_register {r : Register} (h : r ∈ Register.wide) :
    ∀ b ∈ r.text, b ≠ Byte.plus ∧ b ≠ Byte.minus := by
  have hall : ∀ r ∈ Register.wide, r.text.all (fun b => b ≠ Byte.plus ∧ b ≠ Byte.minus) = true := by
    decide
  exact Text.forall_mem_of_all (hall r h)

theorem find?_wide {r : Register} (h : r ∈ Register.wide) :
    Register.wide.find? (·.text = r.text) = some r := by
  have hall : ∀ r ∈ Register.wide, Register.wide.find? (·.text = r.text) = some r := by decide
  exact hall r h

theorem isPlain_inner {r : Register} (h : r ∈ Register.wide) (offset : Word) :
    ∀ b ∈ r.text ++ shift offset, IsPlain b :=
  List.forall_mem_append.2 ⟨isPlain_register h, isPlain_shift offset⟩

theorem readMemory_text {r : Register} (h : r ∈ Register.wide) (offset : Word) :
    Reader.readMemory (memory r offset).text = .ok (memory r offset) := by
  have hclosed : (Byte.leftBracket :: (r.text ++ shift offset ++ [Byte.rightBracket])).getLast? =
      some Byte.rightBracket := by
    rw [← List.cons_append, List.getLast?_concat]
  have hinner : (r.text ++ shift offset ++ [Byte.rightBracket]).dropLast.filter
      (· ≠ Byte.space) = r.text ++ shift offset := by
    rw [List.dropLast_concat, List.filter_eq_self]
    intro b hb
    have hspace : b ≠ Byte.space := by
      rintro rfl
      exact absurd (isPlain_inner h offset _ hb) (by decide)
    simpa using hspace
  have hsplit := splitOffset_shift (register_ne_nil h) (unsigned_register h) offset
  rw [text_memory, Reader.readMemory, if_neg (by rw [hclosed]; simp)]
  simp only [List.tail_cons, hinner, hsplit, find?_wide h]
  by_cases hzero : offset = 0
  · rw [hzero]
    rfl
  · have hempty : (shift offset).isEmpty = false := by
      rw [shift_eq hzero]
      rfl
    simp only [hempty, Bool.false_eq_true, if_false, readInteger_shift hzero]

theorem readable_memory {r : Register} (h : r ∈ Register.wide) (offset : Word) :
    (memory r offset).Readable false := by
  refine ⟨?_, ?_, ?_⟩
  · have hread := readMemory_text h offset
    rw [text_memory] at hread ⊢
    rw [Reader.readOperand, ofText?_eq_none (by decide)]
    exact hread
  · rw [text_memory]
    exact List.cons_ne_nil _ _
  · rw [text_memory]
    refine List.forall_mem_cons.2 ⟨by decide, List.forall_mem_append.2 ⟨isPlain_inner h offset, ?_⟩⟩
    exact List.forall_mem_singleton.2 (by decide)

theorem readable_target {name : Text} (hne : name ≠ []) (h : ∀ b ∈ name, IsPlain b) :
    (target name).Readable true := by
  refine ⟨?_, hne, h⟩
  have hempty : name.isEmpty = false := by simpa using hne
  simp [Reader.readOperand, target, text, hempty]

end Operand

/-! ## Instructions -/

theorem ofText?_text {m : Mnemonic} (h : m ∈ Mnemonic.all) : Mnemonic.ofText? m.text = some m := by
  have hall : ∀ m ∈ Mnemonic.all, Mnemonic.ofText? m.text = some m := by decide
  exact hall m h

theorem isLetter_mnemonic {m : Mnemonic} (h : m ∈ Mnemonic.all) :
    ∀ b ∈ m.text, Byte.isLetter b = true := by
  have hall : ∀ m ∈ Mnemonic.all, m.text.all Byte.isLetter = true := by decide
  exact List.all_eq_true.1 (hall m h)

theorem mnemonic_ne_nil {m : Mnemonic} (h : m ∈ Mnemonic.all) : m.text ≠ [] := by
  have hall : ∀ m ∈ Mnemonic.all, m.text ≠ [] := by decide
  exact hall m h

theorem splitOn_of_not_mem {sep : UInt8} {t : Text} (h : sep ∉ t) : Text.splitOn sep t = [t] := by
  induction t with
  | nil => rfl
  | cons b rest ih =>
    have hb : b ≠ sep := fun heq => h (heq ▸ List.mem_cons_self)
    rw [Text.splitOn, if_neg hb, ih fun hmem => h (List.mem_cons_of_mem b hmem)]

/-- The first piece ends at the first separator. -/
theorem splitOn_append {sep : UInt8} {t : Text} (h : sep ∉ t) (rest : Text) :
    Text.splitOn sep (t ++ sep :: rest) = t :: Text.splitOn sep rest := by
  induction t with
  | nil => rw [List.nil_append, Text.splitOn, if_pos rfl]
  | cons b t ih =>
    have hb : b ≠ sep := fun heq => h (heq ▸ List.mem_cons_self)
    rw [List.cons_append, Text.splitOn, if_neg hb, ih fun hmem => h (List.mem_cons_of_mem b hmem)]

theorem takeWhile_ne_append {b : UInt8} {t : Text} (h : b ∉ t) (rest : Text) :
    (t ++ b :: rest).takeWhile (· ≠ b) = t := by
  rw [List.takeWhile_append_of_pos]
  · simp
  · intro c hc
    simpa using fun heq : c = b => h (heq ▸ hc)

theorem takeWhile_ne_self {b : UInt8} {t : Text} (h : b ∉ t) : t.takeWhile (· ≠ b) = t := by
  induction t with
  | nil => rfl
  | cons c rest ih =>
    have hc : c ≠ b := fun heq => h (heq ▸ List.mem_cons_self)
    rw [List.takeWhile_cons_of_pos (by simpa using hc),
      ih fun hmem => h (List.mem_cons_of_mem c hmem)]

namespace Instruction

/-- The instruction can be recovered from its text. -/
structure Readable (i : Instruction) : Prop where
  mnemonic : i.op ∈ Mnemonic.all
  arity : i.operands.length = i.op.arity
  operands : ∀ o ∈ i.operands, o.Readable i.op.isJump

theorem not_mem_of_letters {t : Text} (h : ∀ b ∈ t, Byte.isLetter b = true) {c : UInt8}
    (hc : Byte.isLetter c = false) : c ∉ t := by
  intro hmem
  rw [h c hmem] at hc
  cases hc

theorem not_mem_of_plain {t : Text} (h : ∀ b ∈ t, IsPlain b) {c : UInt8} (hc : ¬ IsPlain c) :
    c ∉ t :=
  fun hmem => hc (h c hmem)

/-- Operands are read back from their texts, with a space in front of all but the
first. -/
theorem readOperands_texts {jump : Bool} {os : List Operand} (n : Nat)
    (h : ∀ o ∈ os, o.Readable jump) :
    Reader.readOperands jump (os.map fun o => Text.spaces n ++ o.text) = .ok os := by
  induction os with
  | nil => rfl
  | cons o os ih =>
    have ho := h o List.mem_cons_self
    rw [List.map_cons, Reader.readOperands, trim_plain ho.plain, ho.reads,
      ih fun o' ho' => h o' (List.mem_cons_of_mem o ho')]
    rfl

/-- Texts with `, ` between them. -/
def listed (texts : List Text) : Text := Text.join (utf8 ", ") texts

theorem listed_cons_cons (t u : Text) (us : List Text) :
    listed (t :: u :: us) = t ++ Byte.comma :: Byte.space :: listed (u :: us) := by
  have hjoin : listed (t :: u :: us) = t ++ utf8 ", " ++ listed (u :: us) := rfl
  rw [hjoin, List.append_assoc]
  rfl

theorem splitOn_listed {t : Text} {ts : List Text} (h : ∀ u ∈ t :: ts, Byte.comma ∉ u) :
    Text.splitOn Byte.comma (listed (t :: ts)) = t :: ts.map (Byte.space :: ·) := by
  induction ts generalizing t with
  | nil => exact splitOn_of_not_mem (h t List.mem_cons_self)
  | cons u us ih =>
    have hrest := ih fun v hv => h v (List.mem_cons_of_mem t hv)
    rw [listed_cons_cons, splitOn_append (h t List.mem_cons_self), Text.splitOn,
      if_neg (by decide), hrest]
    rfl

/-- What the reader needs to know of a text to leave it alone. -/
structure Trimmed (t : Text) : Prop where
  nonempty : t ≠ []
  ascii : ∀ b ∈ t, b.toNat < 128
  unhashed : Byte.hash ∉ t
  unbroken : Byte.newline ∉ t
  head : ∀ b ∈ t.head?, Text.IsVisible b
  last : ∀ b ∈ t.getLast?, Text.IsVisible b ∧ b ≠ Byte.colon

theorem trimmed_of_plain {t : Text} (hne : t ≠ []) (h : ∀ b ∈ t, IsPlain b) : Trimmed t where
  nonempty := hne
  ascii b hb := (h b hb).ascii
  unhashed := not_mem_of_plain h (by decide)
  unbroken := not_mem_of_plain h (by decide)
  head b hb := (h b (List.mem_of_head? hb)).1
  last b hb := ⟨(h b (List.mem_of_getLast? hb)).1, (h b (List.mem_of_getLast? hb)).2.2.2⟩

theorem Trimmed.trim {t : Text} (h : Trimmed t) (n : Nat) : Text.trim (Text.spaces n ++ t) = t :=
  Text.trim_spaces n h.ascii h.head fun b hb => (h.last b hb).1

/-- Two texts that are trimmed, and something between them. -/
theorem Trimmed.append {t u : Text} (ht : Trimmed t) (hu : Trimmed u) (between : Text)
    (hbetween : ∀ b ∈ between, b.toNat < 128 ∧ b ≠ Byte.hash ∧ b ≠ Byte.newline) :
    Trimmed (t ++ between ++ u) where
  nonempty := by simp [ht.nonempty]
  ascii b hb := by
    simp only [List.mem_append] at hb
    rcases hb with (hb | hb) | hb
    · exact ht.ascii b hb
    · exact (hbetween b hb).1
    · exact hu.ascii b hb
  unhashed hmem := by
    simp only [List.mem_append] at hmem
    rcases hmem with (hmem | hmem) | hmem
    · exact ht.unhashed hmem
    · exact (hbetween _ hmem).2.1 rfl
    · exact hu.unhashed hmem
  unbroken hmem := by
    simp only [List.mem_append] at hmem
    rcases hmem with (hmem | hmem) | hmem
    · exact ht.unbroken hmem
    · exact (hbetween _ hmem).2.2 rfl
    · exact hu.unbroken hmem
  head b hb := by
    cases t with
    | nil => exact absurd rfl ht.nonempty
    | cons c t => exact ht.head b hb
  last b hb := by
    rw [List.getLast?_append, List.getLast?_eq_some_getLast hu.nonempty, Option.some_or,
      ← List.getLast?_eq_some_getLast] at hb
    exact hu.last b hb

theorem trimmed_listed {t : Text} {ts : List Text} (h : ∀ u ∈ t :: ts, Trimmed u) :
    Trimmed (listed (t :: ts)) := by
  induction ts generalizing t with
  | nil => exact h t List.mem_cons_self
  | cons u us ih =>
    have hrest := ih fun v hv => h v (List.mem_cons_of_mem t hv)
    have hlisted := (h t List.mem_cons_self).append hrest [Byte.comma, Byte.space]
      (Text.forall_mem_of_all (by decide))
    rw [listed_cons_cons]
    simpa using hlisted

/-- A line with no operands. -/
theorem readInstruction_bare {line : Text} {op : Mnemonic}
    (hname : Mnemonic.ofText? (line.takeWhile (· ≠ Byte.space)) = some op)
    (hrest : Text.trim (line.drop ((line.takeWhile (· ≠ Byte.space)).length + 1)) = [])
    (harity : 0 = op.arity) : Reader.readInstruction line = .ok ⟨op, []⟩ := by
  unfold Reader.readInstruction
  simp only [hname, hrest, List.isEmpty_nil, if_true]
  change (if 0 ≠ op.arity then _ else _) = _
  rw [if_neg (by simp [← harity])]
  rfl

theorem readInstruction_operands {line rest : Text} {op : Mnemonic} {os : List Operand}
    (hname : Mnemonic.ofText? (line.takeWhile (· ≠ Byte.space)) = some op)
    (hrest : Text.trim (line.drop ((line.takeWhile (· ≠ Byte.space)).length + 1)) = rest)
    (hne : rest ≠ []) (hos : Reader.readOperands op.isJump (rest.splitOn Byte.comma) = .ok os)
    (harity : os.length = op.arity) : Reader.readInstruction line = .ok ⟨op, os⟩ := by
  have hempty : rest.isEmpty = false := by simpa using hne
  unfold Reader.readInstruction
  simp only [hname, hrest, hempty, hos, Bool.false_eq_true, if_false]
  change (if os.length ≠ op.arity then _ else _) = _
  rw [if_neg (by simp [harity])]
  rfl

theorem readInstruction_text {i : Instruction} (h : i.Readable) :
    Reader.readInstruction i.text = .ok i := by
  obtain ⟨op, operands⟩ := i
  have hspace : Byte.space ∉ op.text :=
    not_mem_of_letters (isLetter_mnemonic h.mnemonic) (by decide)
  have hofText : Mnemonic.ofText? op.text = some op := ofText?_text h.mnemonic
  cases operands with
  | nil =>
    have htext : text ⟨op, []⟩ = op.text := rfl
    have hname := takeWhile_ne_self hspace
    rw [htext]
    refine readInstruction_bare (by rwa [hname]) ?_ h.arity
    rw [hname, List.drop_eq_nil_of_le (Nat.le_succ op.text.length)]
    rfl
  | cons o os =>
    have htext : text ⟨op, o :: os⟩ =
        op.text ++ Byte.space :: listed ((o :: os).map Operand.text) := by
      have hjoin : text ⟨op, o :: os⟩ =
        op.text ++ [Byte.space] ++ listed ((o :: os).map Operand.text) := rfl
      rw [hjoin, List.append_assoc]
      rfl
    have hplain : ∀ u ∈ (o :: os).map Operand.text, u ≠ [] ∧ ∀ b ∈ u, IsPlain b := by
      intro u hu
      obtain ⟨o', ho', rfl⟩ := List.mem_map.1 hu
      exact ⟨(h.operands o' ho').nonempty, (h.operands o' ho').plain⟩
    have htrimmed : Trimmed (listed ((o :: os).map Operand.text)) :=
      trimmed_listed fun u hu => trimmed_of_plain (hplain u hu).1 (hplain u hu).2
    have hname := takeWhile_ne_append hspace (listed ((o :: os).map Operand.text))
    rw [htext]
    refine readInstruction_operands (by rwa [hname]) ?_ htrimmed.nonempty ?_ h.arity
    · have hdrop : (op.text ++ Byte.space :: listed ((o :: os).map Operand.text)).drop
          (op.text.length + 1) = listed ((o :: os).map Operand.text) := by
        rw [List.drop_append, List.drop_eq_nil_of_le (Nat.le_succ _)]
        simp
      rw [hname, hdrop]
      exact htrimmed.trim 0
    · have hfirst := h.operands o List.mem_cons_self
      have hothers := readOperands_texts 1 fun o' ho' => h.operands o' (List.mem_cons_of_mem o ho')
      rw [List.map_cons, splitOn_listed fun u hu => not_mem_of_plain (hplain u hu).2 (by decide),
        Reader.readOperands, show Text.trim o.text = o.text from trim_plain hfirst.plain 0,
        hfirst.reads, List.map_map]
      change (do
        let others ← Reader.readOperands op.isJump (os.map fun o => Text.spaces 1 ++ o.text)
        return o :: others) = Except.ok (o :: os)
      rw [hothers]
      rfl

theorem trimmed_text {i : Instruction} (h : i.Readable) : Trimmed i.text := by
  obtain ⟨op, operands⟩ := i
  have hop : Trimmed op.text := by
    refine trimmed_of_plain (mnemonic_ne_nil h.mnemonic) fun b hb => isPlain_namePart ?_
    simp [Byte.isNamePart, isLetter_mnemonic h.mnemonic b hb]
  cases operands with
  | nil => exact hop
  | cons o os =>
    have hlisted : Trimmed (listed ((o :: os).map Operand.text)) := by
      refine trimmed_listed fun u hu => ?_
      obtain ⟨o', ho', rfl⟩ := List.mem_map.1 (show u ∈ (o :: os).map Operand.text from hu)
      exact trimmed_of_plain (h.operands o' ho').nonempty (h.operands o' ho').plain
    exact hop.append hlisted [Byte.space] (Text.forall_mem_of_all (by decide))

/-- An instruction is not taken for a directive. -/
theorem head_text_ne_dot {i : Instruction} (h : i.op ∈ Mnemonic.all) :
    i.text.head? ≠ some Byte.dot := by
  intro heq
  obtain ⟨b, rest, hop⟩ := List.exists_cons_of_ne_nil (mnemonic_ne_nil h)
  have hhead : i.text.head? = some b := by
    rw [text, hop]
    split
    · rfl
    · rfl
  have hletter := isLetter_mnemonic h b (hop ▸ List.mem_cons_self)
  obtain rfl : Byte.dot = b := Option.some.inj (heq.symm.trans hhead)
  exact absurd hletter (by decide)

end Instruction

/-! ## Lines -/

namespace Line

/-- The text of a line without its end. -/
def bare : Line → Text
  | intelNotation => utf8 ".intel_syntax noprefix"
  | global name => utf8 ".globl " ++ name
  | label name => name ++ [Byte.colon]
  | instruction i => Text.spaces 2 ++ i.text
  | comment remark => utf8 "  # " ++ remark

theorem text_eq_bare (l : Line) : l.text = l.bare ++ [Byte.newline] := by
  cases l with
  | intelNotation => rfl
  | global name => rfl
  | label name =>
    rw [text, bare, List.append_assoc]
    rfl
  | instruction i => rfl
  | comment remark => rfl

/-- The line can be recovered from its text, and only a label ends like one. -/
def Readable : Line → Prop
  | intelNotation => True
  | global name => name ≠ [] ∧ ∀ b ∈ name, IsPlain b
  | label name => name ≠ [] ∧ ∀ b ∈ name, IsPlain b
  | instruction i => i.Readable
  | comment remark => Byte.newline ∉ remark ∧ remark.getLast? ≠ some Byte.colon

/-- The label that the line defines. -/
def label? : Line → Option Text
  | label name => some name
  | _ => none

/-- What a line adds to an image. -/
def apply (number : Nat) (image : Image) : Line → Image
  | global name => { image with globals := image.globals ++ [name] }
  | label name =>
    { image with labels := image.labels ++ [(name, (image.instructions.size : Int))] }
  | instruction i => { image with instructions := image.instructions.push ⟨number, i⟩ }
  | intelNotation | comment _ => image

theorem significant_spaces {t : Text} (n : Nat) (hne : t ≠ []) (hascii : ∀ b ∈ t, b.toNat < 128)
    (hhash : Byte.hash ∉ t) (hhead : ∀ b ∈ t.head?, Text.IsVisible b)
    (hlast : ∀ b ∈ t.getLast?, Text.IsVisible b) :
    Reader.significant (Reader.dropReturn (Text.spaces n ++ t)) = t := by
  have hreturn : Reader.dropReturn (Text.spaces n ++ t) = Text.spaces n ++ t := by
    rw [Reader.dropReturn, if_neg]
    rw [List.getLast?_append, List.getLast?_eq_some_getLast hne, Option.some_or,
      ← List.getLast?_eq_some_getLast]
    intro heq
    exact absurd (hlast _ heq) (by decide)
  have hhash' : Byte.hash ∉ Text.spaces n ++ t := by
    intro hmem
    rcases List.mem_append.1 hmem with hmem | hmem
    · exact absurd (List.eq_of_mem_replicate hmem) (by decide)
    · exact hhash hmem
  rw [hreturn, Reader.significant, takeWhile_ne_self hhash', Text.trim_spaces n hascii hhead hlast]

theorem significant_comment (rest : Text) :
    Reader.significant (Reader.dropReturn (Byte.space :: Byte.space :: Byte.hash :: Byte.space ::
      rest)) = [] := by
  rw [Reader.dropReturn]
  split
  · rfl
  · rfl

theorem readLine_significant {number : Nat} {line t : Text} {image : Image}
    (h : Reader.significant line = t) (hne : t ≠ []) :
    Reader.readLine number line image = Reader.readStatement number t image := by
  have hempty : t.isEmpty = false := by simpa using hne
  rw [Reader.readLine, h]
  simp [hempty]

theorem readLine_trimmed {t : Text} (h : Instruction.Trimmed t) (n number : Nat) (image : Image) :
    Reader.readLine number (Reader.dropReturn (Text.spaces n ++ t)) image =
      if t.head? = some Byte.dot then Reader.readDirective t image
      else do
        let i ← Reader.readInstruction t
        return { image with instructions := image.instructions.push ⟨number, i⟩ } := by
  have hsignificant := significant_spaces n h.nonempty h.ascii h.unhashed h.head
    fun b hb => (h.last b hb).1
  have hcolon : ¬ t.getLast? = some Byte.colon := fun heq => (h.last _ heq).2 rfl
  rw [readLine_significant hsignificant h.nonempty, Reader.readStatement, if_neg hcolon]

theorem readLine_directive (name : Text) {argument : Text} (hdot : name.head? = some Byte.dot)
    (hname : ∀ b ∈ name, IsPlain b) (hne : argument ≠ []) (hargument : ∀ b ∈ argument, IsPlain b)
    (number : Nat) (image : Image) :
    Reader.readLine number (Reader.dropReturn (name ++ Byte.space :: argument)) image =
      if name = utf8 ".globl" || name = utf8 ".global" then
        .ok { image with globals := image.globals ++ [argument] }
      else .ok image := by
  have hname' : name ≠ [] := by
    intro hnil
    rw [hnil] at hdot
    cases hdot
  have htrimmed := (Instruction.trimmed_of_plain hname' hname).append
    (Instruction.trimmed_of_plain hne hargument) [Byte.space] (Text.forall_mem_of_all (by decide))
  have hwords := Text.words_pair hname' hne (fun b hb => (hname b hb).1)
    fun b hb => (hargument b hb).1
  have hhead : (name ++ [Byte.space] ++ argument).head? = some Byte.dot := by
    rw [List.append_assoc, List.head?_append, hdot]
    rfl
  have hread := readLine_trimmed htrimmed 0 number image
  rw [if_pos hhead] at hread
  rw [List.append_assoc] at hread
  refine hread.trans ?_
  change Reader.readDirective (name ++ Byte.space :: argument) image = _
  rw [Reader.readDirective, hwords]

/-- A label is read unless it is known already. -/
theorem readLine_label {name : Text} (hne : name ≠ []) (hplain : ∀ b ∈ name, IsPlain b)
    (number : Nat) (image : Image) :
    Reader.readLine number (Reader.dropReturn (name ++ [Byte.colon])) image =
      match image.index? name with
      | some _ => .error ⟨name ++ [Byte.colon], .duplicateLabel name⟩
      | none => .ok ((label name).apply number image) := by
  have htrimmed := Instruction.trimmed_of_plain hne hplain
  have hlast : (name ++ [Byte.colon]).getLast? = some Byte.colon := by simp
  have hsignificant : Reader.significant (Reader.dropReturn (name ++ [Byte.colon])) =
      name ++ [Byte.colon] := by
    refine significant_spaces 0 (by simp) ?_ ?_ ?_ ?_
    · intro b hb
      rcases List.mem_append.1 hb with hb | hb
      · exact htrimmed.ascii b hb
      · rw [List.mem_singleton.1 hb]
        decide
    · intro hmem
      rcases List.mem_append.1 hmem with hmem | hmem
      · exact htrimmed.unhashed hmem
      · exact absurd (List.mem_singleton.1 hmem) (by decide)
    · cases name with
      | nil => exact absurd rfl hne
      | cons c name => exact htrimmed.head
    · intro b hb
      have hb' : b ∈ (name ++ [Byte.colon]).getLast? := hb
      rw [hlast] at hb'
      rw [← Option.some.inj hb']
      decide
  rw [readLine_significant hsignificant (by simp), Reader.readStatement, if_pos hlast]
  simp only [List.dropLast_concat]
  rfl

theorem readLine_bare {l : Line} (h : l.Readable) (number : Nat) {image : Image}
    (hfresh : ∀ name, l = .label name → image.index? name = none) :
    Reader.readLine number (Reader.dropReturn l.bare) image = .ok (l.apply number image) := by
  cases l with
  | intelNotation =>
    exact readLine_directive (utf8 ".intel_syntax") rfl (Text.forall_mem_of_all (by decide))
      (show utf8 "noprefix" ≠ [] by decide) (Text.forall_mem_of_all (by decide)) number image
  | global name =>
    exact readLine_directive (utf8 ".globl") rfl (Text.forall_mem_of_all (by decide)) h.1 h.2 number
      image
  | label name => rw [bare, readLine_label h.1 h.2, hfresh name rfl]
  | instruction i =>
    have hread := readLine_trimmed (Instruction.trimmed_text h) 2 number image
    rw [if_neg (Instruction.head_text_ne_dot h.mnemonic), Instruction.readInstruction_text h]
      at hread
    exact hread
  | comment remark =>
    rw [Reader.readLine, show bare (comment remark) = Byte.space :: Byte.space :: Byte.hash ::
      Byte.space :: remark from rfl, significant_comment]
    rfl

theorem newline_not_mem_bare {l : Line} (h : l.Readable) : Byte.newline ∉ l.bare := by
  cases l with
  | intelNotation => decide
  | global name =>
    intro hmem
    rcases List.mem_append.1 hmem with hmem | hmem
    · exact absurd hmem (by decide)
    · exact absurd (h.2 _ hmem) (by decide)
  | label name =>
    intro hmem
    rcases List.mem_append.1 hmem with hmem | hmem
    · exact absurd (h.2 _ hmem) (by decide)
    · exact absurd hmem (by decide)
  | instruction i =>
    intro hmem
    rcases List.mem_append.1 hmem with hmem | hmem
    · exact absurd (List.eq_of_mem_replicate hmem) (by decide)
    · exact (Instruction.trimmed_text h).unbroken hmem
  | comment remark =>
    intro hmem
    rcases List.mem_append.1 hmem with hmem | hmem
    · exact absurd hmem (by decide)
    · exact h.1 hmem

end Line

end Asm
end WordC
