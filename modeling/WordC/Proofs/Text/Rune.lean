import Mathlib.Data.List.DropRight
import WordC.Proofs.Text.Ascii
/-!
A text and its runes determine each other.

The runes of a text, written out again, are the text.  The converse fails for runes that
were put together at will, since stray bytes can join to a character, but it holds for any
run of neighbours among the runes of a text.  Hence what trimming leaves is a part of the
text, and trimming it again changes nothing.
-/

namespace WordC
namespace Text

/-! ## The first rune -/

/-- The code point that a leading byte and the bytes behind it spell. -/
def codeOf (a : UInt8) (tail : Text) : Nat :=
  tail.foldl (fun n b => 64 * n + (b.toNat - 0x80)) (leadBits a tail.length)

/-- The bytes behind a leading byte complete a character. -/
structure Completes (a : UInt8) (tail : Text) : Prop where
  length : tailLength? a = some tail.length
  continued : tail.all isContinuation = true
  least : leastCode tail.length ≤ codeOf a tail
  valid : (codeOf a tail).isValidChar

theorem leadingRune_of_completes {a : UInt8} {tail : Text} (h : Completes a tail) (rest : Text) :
    leadingRune a (tail ++ rest) = (.char (Char.ofNat (codeOf a tail)), tail.length) := by
  unfold leadingRune
  rw [h.length]
  dsimp only
  rw [List.take_left, if_pos]
  · rfl
  · simpa using ⟨⟨List.all_eq_true.1 h.continued, h.least⟩, h.valid⟩

/-- A byte stands for itself unless what follows completes a character. -/
theorem leadingRune_cases (a : UInt8) (rest : Text) :
    (leadingRune a rest = (.stray a, 0) ∧ ∀ tail, tail <+: rest → ¬ Completes a tail) ∨
      ∃ tail, tail <+: rest ∧ Completes a tail := by
  by_cases h : ∃ tail, tail <+: rest ∧ Completes a tail
  · exact .inr h
  refine .inl ⟨?_, fun tail hstarts hcompletes => h ⟨tail, hstarts, hcompletes⟩⟩
  unfold leadingRune
  cases hlength : tailLength? a with
  | none => rfl
  | some k =>
    dsimp only
    rw [if_neg]
    intro hall
    simp only [Bool.and_eq_true, decide_eq_true_eq] at hall
    obtain ⟨⟨⟨hk, hcontinued⟩, hleast⟩, hvalid⟩ := hall
    refine h ⟨rest.take k, List.take_prefix k rest, by rw [hk, hlength], hcontinued, ?_, ?_⟩
    · rwa [codeOf, hk]
    · rwa [codeOf, hk]

theorem isContinuation_iff {b : UInt8} :
    isContinuation b = true ↔ 0x80 ≤ b.toNat ∧ b.toNat ≤ 0xBF := by
  simp [isContinuation, UInt8.le_iff_toNat_le]

/-- The leading byte tells the number of bytes by its range. -/
theorem tailLength?_cases {a : UInt8} {k : Nat} (h : tailLength? a = some k) :
    (k = 0 ∧ a.toNat < 0x80) ∨ (k = 1 ∧ 0xC2 ≤ a.toNat ∧ a.toNat ≤ 0xDF) ∨
      (k = 2 ∧ 0xE0 ≤ a.toNat ∧ a.toNat ≤ 0xEF) ∨ (k = 3 ∧ 0xF0 ≤ a.toNat ∧ a.toNat ≤ 0xF4) := by
  unfold tailLength? at h
  simp only [UInt8.lt_iff_toNat_lt, UInt8.le_iff_toNat_le, UInt8.reduceToNat, Bool.and_eq_true,
    decide_eq_true_eq] at h
  split at h
  · simp_all
  · split at h
    · simp_all
    · split at h
      · simp_all
      · split at h
        · simp_all
        · cases h

theorem toNat_char_ofNat {n : Nat} (h : n.isValidChar) : (Char.ofNat n).val.toNat = n := by
  rw [Char.ofNat, dif_pos h]
  rfl

theorem ofNat_eq_of_toNat {b : UInt8} {n : Nat} (h : n = b.toNat) : UInt8.ofNat n = b := by
  rw [h, UInt8.ofNat_toNat]

/-- A character is encoded as the bytes that spell it. -/
theorem bytes_of_completes {a : UInt8} {tail : Text} (h : Completes a tail) :
    (Rune.char (Char.ofNat (codeOf a tail))).bytes = a :: tail := by
  have hcontinued := h.continued
  have hleast := h.least
  rw [Rune.bytes]
  unfold String.utf8EncodeChar
  rw [toNat_char_ofNat h.valid]
  rcases tailLength?_cases h.length with ⟨hk, ha⟩ | ⟨hk, ha⟩ | ⟨hk, ha⟩ | ⟨hk, ha⟩
  · obtain rfl := List.length_eq_zero_iff.1 hk
    have hcode : codeOf a [] = a.toNat := rfl
    rw [hcode, if_pos (by omega), UInt8.ofNat_toNat]
  · obtain ⟨b, rfl⟩ := List.length_eq_one_iff.1 hk
    have hcode : codeOf a [b] = 64 * (a.toNat - 0xC0) + (b.toNat - 0x80) := rfl
    simp only [List.all_cons, List.all_nil, Bool.and_true, isContinuation_iff] at hcontinued
    rw [hcode, if_neg (by omega), if_pos (by omega), ofNat_eq_of_toNat (b := a) (by omega),
      ofNat_eq_of_toNat (b := b) (by omega)]
  · obtain ⟨b, c, rfl⟩ := List.length_eq_two.1 hk
    have hcode : codeOf a [b, c] =
        64 * (64 * (a.toNat - 0xE0) + (b.toNat - 0x80)) + (c.toNat - 0x80) := rfl
    have hleast' : 0x800 ≤ codeOf a [b, c] := hleast
    rw [hcode] at hleast' ⊢
    simp only [List.all_cons, List.all_nil, Bool.and_true, Bool.and_eq_true,
      isContinuation_iff] at hcontinued
    rw [if_neg (by omega), if_neg (by omega), if_pos (by omega),
      ofNat_eq_of_toNat (b := a) (by omega), ofNat_eq_of_toNat (b := b) (by omega),
      ofNat_eq_of_toNat (b := c) (by omega)]
  · obtain ⟨b, c, d, rfl⟩ := List.length_eq_three.1 hk
    have hcode : codeOf a [b, c, d] = 64 * (64 * (64 * (a.toNat - 0xF0) + (b.toNat - 0x80)) +
        (c.toNat - 0x80)) + (d.toNat - 0x80) := rfl
    have hleast' : 0x10000 ≤ codeOf a [b, c, d] := hleast
    rw [hcode] at hleast' ⊢
    simp only [List.all_cons, List.all_nil, Bool.and_true, Bool.and_eq_true,
      isContinuation_iff] at hcontinued
    rw [if_neg (by omega), if_neg (by omega), if_neg (by omega),
      ofNat_eq_of_toNat (b := a) (by omega), ofNat_eq_of_toNat (b := b) (by omega),
      ofNat_eq_of_toNat (b := c) (by omega), ofNat_eq_of_toNat (b := d) (by omega)]

/-- A rune is written as the bytes it was read from. -/
theorem bytes_leadingRune (a : UInt8) (rest : Text) :
    ∃ tail more, rest = tail ++ more ∧ (leadingRune a rest).1.bytes = a :: tail ∧
      (leadingRune a rest).2 = tail.length := by
  rcases leadingRune_cases a rest with ⟨hstray, -⟩ | ⟨tail, ⟨more, rfl⟩, hcompletes⟩
  · exact ⟨[], rest, rfl, by rw [hstray, Rune.bytes], by rw [hstray, List.length_nil]⟩
  · refine ⟨tail, more, rfl, ?_, ?_⟩
    · rw [leadingRune_of_completes hcompletes, bytes_of_completes hcompletes]
    · rw [leadingRune_of_completes hcompletes]

/-- A rune looks no further than its own bytes. -/
theorem leadingRune_of_isPrefix {a : UInt8} {rest short : Text} (h : short <+: rest)
    (hlength : (leadingRune a rest).2 ≤ short.length) :
    leadingRune a short = leadingRune a rest := by
  rcases leadingRune_cases a rest with ⟨hstray, hnone⟩ | ⟨tail, htail, hcompletes⟩
  · rcases leadingRune_cases a short with ⟨hstray', -⟩ | ⟨tail, htail, hcompletes⟩
    · rw [hstray, hstray']
    · exact absurd hcompletes (hnone tail (htail.trans h))
  · have hchar : ∀ {text : Text}, tail <+: text →
        leadingRune a text = (.char (Char.ofNat (codeOf a tail)), tail.length) := by
      rintro - ⟨more, rfl⟩
      exact leadingRune_of_completes hcompletes more
    rw [hchar htail] at hlength ⊢
    exact hchar (List.prefix_of_prefix_length_le htail h hlength)

/-! ## All runes -/

theorem runesUpTo_eq_runes {n : Nat} {t : Text} (h : t.length ≤ n) : runesUpTo n t = runes t := by
  have hsame : ∀ n m (t : Text), t.length ≤ n → t.length ≤ m → runesUpTo n t = runesUpTo m t := by
    intro n
    induction n with
    | zero =>
      intro m t hn _
      obtain rfl := List.length_eq_zero_iff.1 (Nat.le_zero.1 hn)
      cases m <;> rfl
    | succ n ih =>
      intro m t hn hm
      cases t with
      | nil => cases m <;> rfl
      | cons a rest =>
        obtain ⟨m, rfl⟩ : ∃ k, m = k + 1 := ⟨m - 1, by simp at hm; omega⟩
        have hdrop := List.length_drop (i := (leadingRune a rest).2) (l := rest)
        rw [List.length_cons] at hn hm
        rw [runesUpTo, runesUpTo, ih m _ (by omega) (by omega)]
  exact hsame n t.length t h (Nat.le_refl _)

theorem runes_cons (a : UInt8) (rest : Text) :
    runes (a :: rest) =
      (leadingRune a rest).1 :: runes (rest.drop (leadingRune a rest).2) := by
  have hdrop := List.length_drop (i := (leadingRune a rest).2) (l := rest)
  rw [runes, List.length_cons, runesUpTo, runesUpTo_eq_runes (by omega)]

theorem ofRunes_cons (r : Rune) (rs : List Rune) : ofRunes (r :: rs) = r.bytes ++ ofRunes rs :=
  List.flatMap_cons

theorem ofRunes_append (rs rs' : List Rune) : ofRunes (rs ++ rs') = ofRunes rs ++ ofRunes rs' :=
  List.flatMap_append

/-- A text is read rune by rune. -/
theorem rune_induction {P : Text → Prop} (nil : P [])
    (cons : ∀ a rest, P (rest.drop (leadingRune a rest).2) → P (a :: rest)) (t : Text) : P t := by
  induction hn : t.length using Nat.strongRecOn generalizing t with
  | ind n ih =>
    subst hn
    cases t with
    | nil => exact nil
    | cons a rest =>
      refine cons a rest (ih _ ?_ _ rfl)
      rw [List.length_drop, List.length_cons]
      omega

/-- The runes of a text, written out again, are the text. -/
theorem ofRunes_runes (t : Text) : ofRunes (runes t) = t := by
  induction t using rune_induction with
  | nil => rfl
  | cons a rest ih =>
    obtain ⟨tail, more, hrest, hbytes, hlength⟩ := bytes_leadingRune a rest
    rw [runes_cons, ofRunes_cons, ih, hbytes, hlength, hrest, List.drop_left, List.cons_append]

theorem runes_ofRunes_of_isSuffix {t : Text} {rs : List Rune} (h : rs <:+ runes t) :
    runes (ofRunes rs) = rs := by
  induction t using rune_induction with
  | nil =>
    obtain rfl := List.eq_nil_of_suffix_nil h
    rfl
  | cons a rest ih =>
    rw [runes_cons] at h
    rcases List.suffix_cons_iff.1 h with rfl | h
    · rw [← runes_cons, ofRunes_runes]
    · exact ih h

theorem runes_ofRunes_of_isPrefix {t : Text} {rs : List Rune} (h : rs <+: runes t) :
    runes (ofRunes rs) = rs := by
  induction t using rune_induction generalizing rs with
  | nil =>
    obtain rfl := List.eq_nil_of_prefix_nil h
    rfl
  | cons a rest ih =>
    cases rs with
    | nil => rfl
    | cons r rs =>
      rw [runes_cons] at h
      obtain ⟨rfl, hrs⟩ := List.cons_prefix_cons.1 h
      obtain ⟨tail, more, hrest, hbytes, hlength⟩ := bytes_leadingRune a rest
      have hdrop : rest.drop (leadingRune a rest).2 = more := by
        rw [hlength, hrest, List.drop_left]
      have hshort : tail ++ ofRunes rs <+: rest := by
        obtain ⟨others, hothers⟩ := hrs
        refine ⟨ofRunes others, ?_⟩
        rw [List.append_assoc, ← ofRunes_append, hothers, ofRunes_runes, hdrop, ← hrest]
      have hlong : (leadingRune a rest).2 ≤ (tail ++ ofRunes rs).length := by
        rw [hlength, List.length_append]
        exact Nat.le_add_right _ _
      have hfirst := leadingRune_of_isPrefix hshort hlong
      rw [ofRunes_cons, hbytes, List.cons_append, runes_cons, hfirst, hlength, List.drop_left,
        ih hrs]

/-- Neighbours among the runes of a text are read back. -/
theorem runes_ofRunes {t : Text} {rs : List Rune} (h : rs <:+: runes t) :
    runes (ofRunes rs) = rs := by
  obtain ⟨front, back, h⟩ := h
  rw [List.append_assoc] at h
  refine runes_ofRunes_of_isPrefix (t := ofRunes (rs ++ back)) ?_
  rw [runes_ofRunes_of_isSuffix ⟨front, h⟩]
  exact List.prefix_append rs back

theorem runes_ascii_append {t : Text} (ht : ∀ b ∈ t, b.toNat < 128) (rest : Text) :
    runes (t ++ rest) = t.map asciiRune ++ runes rest := by
  induction t with
  | nil => rfl
  | cons b t ih =>
    rw [List.cons_append, runes_cons, leadingRune_ascii (ht b List.mem_cons_self), List.drop_zero,
      ih fun c hc => ht c (List.mem_cons_of_mem b hc), List.map_cons, List.cons_append]

/-! ## Trimming -/

/-- What trimming leaves of the runes. -/
def stripped (rs : List Rune) : List Rune := (rs.dropWhile Rune.isBlank).rdropWhile Rune.isBlank

theorem dropWhile_of_head {rs : List Rune} (h : ∀ r ∈ rs.head?, r.isBlank = false) :
    rs.dropWhile Rune.isBlank = rs := by
  cases rs with
  | nil => rfl
  | cons r rs => rw [List.dropWhile_cons_of_neg (by simp [h r rfl])]

theorem rdropWhile_of_last {rs : List Rune} (h : ∀ r ∈ rs.getLast?, r.isBlank = false) :
    rs.rdropWhile Rune.isBlank = rs := by
  rw [List.rdropWhile, dropWhile_of_head (by rwa [List.head?_reverse]), List.reverse_reverse]

theorem head_dropWhile {rs : List Rune} :
    ∀ r ∈ (rs.dropWhile Rune.isBlank).head?, r.isBlank = false := by
  intro r hr
  have hstop := List.head?_dropWhile_not Rune.isBlank rs
  rw [Option.mem_def.1 hr] at hstop
  simpa using hstop

theorem head_stripped {rs : List Rune} : ∀ r ∈ (stripped rs).head?, r.isBlank = false := by
  intro r hr
  have hsplit := List.rdropWhile_append_rtakeWhile (p := Rune.isBlank)
    (l := rs.dropWhile Rune.isBlank)
  have hhead : r ∈ (rs.dropWhile Rune.isBlank).head? := by
    rw [← hsplit, List.head?_append]
    exact Option.or_eq_some_iff.2 (.inl hr)
  exact head_dropWhile r hhead

theorem last_stripped {rs : List Rune} : ∀ r ∈ (stripped rs).getLast?, r.isBlank = false := by
  intro r hr
  rw [stripped, List.rdropWhile, List.getLast?_reverse] at hr
  exact head_dropWhile r hr

theorem stripped_isInfix (rs : List Rune) : stripped rs <:+: rs := by
  have hfront := List.rdropWhile_prefix Rune.isBlank (rs.dropWhile Rune.isBlank)
  exact hfront.isInfix.trans (List.dropWhile_suffix _).isInfix

/-- The text neither starts nor ends with white space. -/
structure Tight (t : Text) : Prop where
  head : ∀ r ∈ (runes t).head?, r.isBlank = false
  last : ∀ r ∈ (runes t).getLast?, r.isBlank = false

theorem trim_eq (t : Text) : trim t = ofRunes (stripped (runes t)) := rfl

theorem Tight.trim {t : Text} (h : Tight t) : trim t = t := by
  rw [trim_eq, stripped, dropWhile_of_head h.head, rdropWhile_of_last h.last, ofRunes_runes]

theorem tight_trim (t : Text) : Tight (trim t) := by
  have hrunes : runes (trim t) = stripped (runes t) := runes_ofRunes (stripped_isInfix _)
  refine ⟨?_, ?_⟩
  · rw [hrunes]
    exact head_stripped
  · rw [hrunes]
    exact last_stripped

/-- Trimming leaves a part of the text. -/
theorem trim_isInfix (t : Text) : trim t <:+: t := by
  obtain ⟨front, back, h⟩ := stripped_isInfix (runes t)
  refine ⟨ofRunes front, ofRunes back, ?_⟩
  rw [trim_eq, ← ofRunes_append, ← ofRunes_append, h, ofRunes_runes]

/-- Without white space at its end, a text is trimmed at its start alone. -/
theorem trim_isSuffix {t : Text} (h : ∀ r ∈ (runes t).getLast?, r.isBlank = false) :
    trim t <:+ t := by
  have hsplit := List.takeWhile_append_dropWhile (p := Rune.isBlank) (l := runes t)
  have hlast : ∀ r ∈ ((runes t).dropWhile Rune.isBlank).getLast?, r.isBlank = false := by
    intro r hr
    refine h r ?_
    rw [← hsplit, List.getLast?_append]
    exact Option.or_eq_some_iff.2 (.inl hr)
  refine ⟨ofRunes ((runes t).takeWhile Rune.isBlank), ?_⟩
  rw [trim_eq, stripped, rdropWhile_of_last hlast, ← ofRunes_append, hsplit, ofRunes_runes]

/-- A visible start in front of a text that is not empty. -/
theorem Tight.append_ascii {s t : Text} (ht : Tight t) (hne : t ≠ [])
    (hs : ∀ b ∈ s, b.toNat < 128) (hhead : ∃ b ∈ s.head?, IsVisible b) : Tight (s ++ t) := by
  obtain ⟨b, hb, hvisible⟩ := hhead
  obtain ⟨s, rfl⟩ := List.head?_eq_some_iff.1 hb
  obtain ⟨c, rest, rfl⟩ := List.exists_cons_of_ne_nil hne
  refine ⟨?_, ?_⟩
  · intro r hr
    rw [runes_ascii_append hs, List.map_cons, List.cons_append, List.head?_cons] at hr
    rw [← Option.some_inj.1 hr]
    exact not_isBlank_of_visible hvisible
  · intro r hr
    refine ht.last r ?_
    rw [runes_ascii_append hs, runes_cons, List.getLast?_append_cons] at hr
    rwa [runes_cons]

end Text
end WordC
