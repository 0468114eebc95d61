import WordC.Text.Rune
/-!
White space in texts of ASCII bytes.

Every byte of such a text is a character of its own, so trimming and cutting into
words can be followed byte by byte.
-/

namespace WordC
namespace Text

/-- A byte that is visible in ASCII. -/
def IsVisible (b : UInt8) : Prop := 33 ≤ b.toNat ∧ b.toNat ≤ 126

instance (b : UInt8) : Decidable (IsVisible b) := inferInstanceAs (Decidable (_ ∧ _))

/-- What can be checked byte by byte. -/
theorem forall_mem_of_all {P : UInt8 → Prop} [DecidablePred P] {t : Text}
    (h : t.all (P ·) = true) : ∀ b ∈ t, P b :=
  fun b hb => of_decide_eq_true (List.all_eq_true.1 h b hb)

/-- The character of an ASCII byte. -/
def asciiRune (b : UInt8) : Rune := .char (Char.ofNat b.toNat)

theorem leadingRune_ascii {b : UInt8} (hb : b.toNat < 128) (rest : Text) :
    leadingRune b rest = (asciiRune b, 0) := by
  have hlt : b < 0x80 := by
    rw [UInt8.lt_iff_toNat_lt]
    simpa using hb
  have htail : tailLength? b = some 0 := by rw [tailLength?, if_pos hlt]
  have hvalid : b.toNat.isValidChar := by
    unfold Nat.isValidChar
    omega
  have hbits : leadBits b 0 = b.toNat := rfl
  have hleast : leastCode 0 = 0 := rfl
  unfold leadingRune
  rw [htail]
  simp only [List.take_zero, List.foldl_nil, hbits, List.length_nil, List.all_nil]
  rw [if_pos (by simp [hvalid, hleast])]
  rfl

theorem runes_ascii {t : Text} (ht : ∀ b ∈ t, b.toNat < 128) : runes t = t.map asciiRune := by
  unfold runes
  induction t with
  | nil => rfl
  | cons b rest ih =>
    have hb := leadingRune_ascii (ht b List.mem_cons_self) rest
    rw [List.length_cons, runesUpTo, hb, List.drop_zero,
      ih fun c hc => ht c (List.mem_cons_of_mem b hc), List.map_cons]

theorem bytes_asciiRune {b : UInt8} (hb : b.toNat < 128) : (asciiRune b).bytes = [b] := by
  have hall : ∀ n < 128, String.utf8EncodeChar (Char.ofNat n) = [n.toUInt8] := by decide
  rw [asciiRune, Rune.bytes, hall b.toNat hb]
  simp

theorem ofRunes_ascii {t : Text} (ht : ∀ b ∈ t, b.toNat < 128) : ofRunes (t.map asciiRune) = t := by
  induction t with
  | nil => rfl
  | cons b rest ih =>
    have hrest := ih fun c hc => ht c (List.mem_cons_of_mem b hc)
    rw [ofRunes] at hrest ⊢
    rw [List.map_cons, List.flatMap_cons, bytes_asciiRune (ht b List.mem_cons_self), hrest]
    rfl

theorem not_isBlank_of_visible {b : UInt8} (hb : IsVisible b) : (asciiRune b).isBlank = false := by
  have hall : ∀ n < 127, 33 ≤ n → (Rune.char (Char.ofNat n)).isBlank = false := by decide
  exact hall b.toNat (by have := hb.2; omega) hb.1

theorem isBlank_space : (asciiRune Byte.space).isBlank = true := by decide

/-- Nothing is dropped in front of a byte that is visible. -/
theorem dropWhile_isBlank {t : Text} (h : ∀ b ∈ t.head?, IsVisible b) :
    (t.map asciiRune).dropWhile Rune.isBlank = t.map asciiRune := by
  cases t with
  | nil => rfl
  | cons b rest =>
    rw [List.map_cons, List.dropWhile_cons_of_neg]
    simp [not_isBlank_of_visible (h b rfl)]

/-- Trimming removes the spaces in front of a text that starts and ends visibly. -/
theorem trim_spaces {t : Text} (n : Nat) (ht : ∀ b ∈ t, b.toNat < 128)
    (hhead : ∀ b ∈ t.head?, IsVisible b) (hlast : ∀ b ∈ t.getLast?, IsVisible b) :
    trim (spaces n ++ t) = t := by
  have hascii : ∀ b ∈ spaces n ++ t, b.toNat < 128 := by
    intro b hb
    rcases List.mem_append.1 hb with hb | hb
    · rw [List.eq_of_mem_replicate hb]
      decide
    · exact ht b hb
  have hspaces : ∀ r ∈ (spaces n).map asciiRune, r.isBlank = true := by
    intro r hr
    obtain ⟨b, hb, rfl⟩ := List.mem_map.1 hr
    rw [List.eq_of_mem_replicate hb]
    exact isBlank_space
  have hreverse := dropWhile_isBlank (t := t.reverse) (by rwa [List.head?_reverse])
  rw [trim, runes_ascii hascii, List.map_append, List.dropWhile_append_of_pos hspaces,
    dropWhile_isBlank hhead, ← List.map_reverse, hreverse, List.map_reverse, List.reverse_reverse,
    ofRunes_ascii ht]

/-! ## Words -/

theorem wordsOf_blank {r : Rune} (hr : r.isBlank = true) (rest : List Rune) :
    wordsOf (r :: rest) = wordsOf rest := by
  conv => lhs; unfold wordsOf
  rw [if_pos hr]

/-- A word goes on up to the next white space. -/
theorem wordsOf_cons {r next : Rune} {rest word : List Rune} {words : List (List Rune)}
    (hr : r.isBlank = false) (hnext : next.isBlank = false)
    (h : wordsOf (next :: rest) = word :: words) :
    wordsOf (r :: next :: rest) = (r :: word) :: words := by
  unfold wordsOf
  rw [hr, h]
  simp [hnext]

theorem wordsOf_cons_blank {r next : Rune} {rest : List Rune} (hr : r.isBlank = false)
    (hnext : next.isBlank = true) : wordsOf (r :: next :: rest) = [r] :: wordsOf rest := by
  conv => lhs; unfold wordsOf
  rw [hr, wordsOf_blank hnext]
  cases hwords : wordsOf rest with
  | nil => simp
  | cons word words => simp [hnext]

theorem wordsOf_word {w : Text} (hne : w ≠ []) (hw : ∀ b ∈ w, IsVisible b) :
    wordsOf (w.map asciiRune) = [w.map asciiRune] := by
  induction w with
  | nil => exact absurd rfl hne
  | cons b rest ih =>
    have hb := not_isBlank_of_visible (hw b List.mem_cons_self)
    cases rest with
    | nil => simp [wordsOf, hb]
    | cons c rest =>
      have hc := not_isBlank_of_visible (hw c (by simp))
      have hrest := ih (List.cons_ne_nil c rest) fun x hx => hw x (List.mem_cons_of_mem b hx)
      exact wordsOf_cons hb hc hrest

theorem wordsOf_word_space {w : Text} (hne : w ≠ []) (hw : ∀ b ∈ w, IsVisible b)
    (rest : List Rune) :
    wordsOf (w.map asciiRune ++ asciiRune Byte.space :: rest) =
      w.map asciiRune :: wordsOf rest := by
  induction w with
  | nil => exact absurd rfl hne
  | cons b w ih =>
    have hb := not_isBlank_of_visible (hw b List.mem_cons_self)
    cases w with
    | nil => exact wordsOf_cons_blank hb isBlank_space
    | cons c w =>
      have hc := not_isBlank_of_visible (hw c (by simp))
      have hrest := ih (List.cons_ne_nil c w) fun x hx => hw x (List.mem_cons_of_mem b hx)
      exact wordsOf_cons hb hc hrest

/-- Two words with a space between them. -/
theorem words_pair {v w : Text} (hv : v ≠ []) (hw : w ≠ []) (hv' : ∀ b ∈ v, IsVisible b)
    (hw' : ∀ b ∈ w, IsVisible b) : words (v ++ Byte.space :: w) = [v, w] := by
  have hascii : ∀ {t : Text}, (∀ b ∈ t, IsVisible b) → ∀ b ∈ t, b.toNat < 128 :=
    fun ht b hb => Nat.lt_of_le_of_lt (ht b hb).2 (by omega)
  have hall : ∀ b ∈ v ++ Byte.space :: w, b.toNat < 128 := by
    intro b hb
    rcases List.mem_append.1 hb with hb | hb
    · exact hascii hv' b hb
    · rcases List.mem_cons.1 hb with rfl | hb
      · decide
      · exact hascii hw' b hb
  rw [words, runes_ascii hall, List.map_append, List.map_cons, wordsOf_word_space hv hv',
    wordsOf_word hw hw', List.map_cons, List.map_singleton, ofRunes_ascii (hascii hv'),
    ofRunes_ascii (hascii hw')]

end Text
end WordC
