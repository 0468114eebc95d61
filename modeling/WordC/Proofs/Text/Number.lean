import WordC.Text.Number
/-!
Numbers are read back as they were written.
-/

namespace WordC
namespace Text

theorem ofNat_ne_nil (n : Nat) : ofNat n ≠ [] := by
  simp [ofNat, digits, Nat.toDigits_ne_nil]

theorem toNat_digit {n : Nat} {c : Char} (hc : c ∈ Nat.toDigits 10 n) :
    c.toNat.toUInt8.toNat = c.toNat ∧ 48 ≤ c.toNat ∧ c.toNat ≤ 57 := by
  have hdigit := Nat.isDigit_of_mem_toDigits (by decide) (by decide) hc
  have hrange : 48 ≤ c.toNat ∧ c.toNat ≤ 57 := by
    simpa [Char.isDigit, UInt32.le_iff_toNat_le] using hdigit
  refine ⟨?_, hrange⟩
  simp only [Nat.toUInt8_eq, UInt8.toNat_ofNat']
  omega

theorem isDigit_ofNat {n : Nat} {b : UInt8} (hb : b ∈ ofNat n) : Byte.isDigit b = true := by
  obtain ⟨c, hc, rfl⟩ := List.mem_map.1 hb
  obtain ⟨heq, hrange⟩ := toNat_digit hc
  simp only [Byte.isDigit, UInt8.le_iff_toNat_le, heq, Bool.and_eq_true, decide_eq_true_eq]
  exact hrange

theorem all_isDigit_ofNat (n : Nat) : (ofNat n).all Byte.isDigit = true :=
  List.all_eq_true.2 fun _ => isDigit_ofNat

/-- The value of the digits of a number is the number. -/
theorem decimalValue_ofNat (n : Nat) : decimalValue (ofNat n) = n := by
  have hfold : ∀ (l : List Char) (k : Nat), (∀ c ∈ l, c ∈ Nat.toDigits 10 n) →
      (l.map fun c => c.toNat.toUInt8).foldl (fun n b => 10 * n + (b.toNat - 48)) k
        = Nat.ofDigitChars 10 l k := by
    intro l
    induction l with
    | nil => intro k _; simp
    | cons c l ih =>
      intro k hl
      rw [List.map_cons, List.foldl_cons, ih _ fun c' hc' => hl c' (List.mem_cons_of_mem c hc'),
        Nat.ofDigitChars_cons, (toNat_digit (hl c List.mem_cons_self)).1]
      rfl
  rw [decimalValue, ofNat, digits, hfold _ _ fun _ h => h]
  exact Nat.ofDigitChars_ten_toDigits

theorem ofNat_injective {m n : Nat} (h : ofNat m = ofNat n) : m = n := by
  rw [← decimalValue_ofNat m, h, decimalValue_ofNat]

theorem splitSign_minus (t : Text) : splitSign (Byte.minus :: t) = (true, t) := rfl

theorem splitSign_plus (t : Text) : splitSign (Byte.plus :: t) = (false, t) := rfl

theorem splitSign_digits {t : Text} (hall : t.all Byte.isDigit = true) :
    splitSign t = (false, t) := by
  cases t with
  | nil => rfl
  | cons b rest =>
    have hb : Byte.isDigit b = true := by
      rw [List.all_cons, Bool.and_eq_true] at hall
      exact hall.1
    rw [splitSign.eq_3]
    · rintro rest' h
      cases h
      exact absurd hb (by decide)
    · rintro rest' h
      cases h
      exact absurd hb (by decide)

/-- Digits without a sign are read as their value. -/
theorem readDecimal_digits {t : Text} (hne : t ≠ []) (hall : t.all Byte.isDigit = true) :
    readDecimal t = applySign false (decimalValue t) := by
  simp [readDecimal, splitSign_digits hall, hne, hall]

/-- The value of digits that spell a word. -/
theorem readDecimal_small {t : Text} (hne : t ≠ []) (hall : t.all Byte.isDigit = true)
    (hsmall : decimalValue t ≤ 9223372036854775807) :
    readDecimal t = .ok (Int64.ofNat (decimalValue t)) := by
  have hrange : Word.least ≤ (decimalValue t : Int) ∧ (decimalValue t : Int) ≤ Word.greatest := by
    unfold Word.least Word.greatest
    omega
  rw [readDecimal_digits hne hall, applySign, if_neg (by simp), Word.ofInt?, if_pos hrange]
  rfl

theorem applySign_toInt {w : Word} {negative : Bool} {n : Nat}
    (h : w.toInt = if negative then -(n : Int) else n) : applySign negative n = .ok w := by
  have hle := w.minValue_le_toInt
  have hge := w.toInt_le
  rw [applySign, ← h, Word.ofInt?, if_pos]
  · simp
  · exact ⟨hle, hge⟩

/-- A written word is read back. -/
theorem readDecimal_ofWord (w : Word) : readDecimal (ofWord w) = .ok w := by
  rw [ofWord, ofInt, signed]
  split
  · next hneg =>
    have hbody : readDecimal (Byte.minus :: ofNat w.toInt.natAbs)
        = applySign true (decimalValue (ofNat w.toInt.natAbs)) := by
      rw [readDecimal, splitSign_minus]
      simp [ofNat_ne_nil, all_isDigit_ofNat]
    rw [← ofNat, hbody, decimalValue_ofNat]
    refine applySign_toInt ?_
    rw [if_pos rfl]
    omega
  · next hneg =>
    rw [← ofNat, readDecimal_digits (ofNat_ne_nil _) (all_isDigit_ofNat _), decimalValue_ofNat]
    refine applySign_toInt ?_
    rw [if_neg (by simp)]
    omega

/-! ## Literals

Without a leading zero and without underscores, an integer literal is decimal. -/

theorem digitValue?_digit {b : UInt8} (hb : Byte.isDigit b = true) :
    digitValue? b = some (b.toNat - 48) := by
  rw [digitValue?, if_pos hb]

theorem isDigit_range {b : UInt8} (hb : Byte.isDigit b = true) : 48 ≤ b.toNat ∧ b.toNat ≤ 57 := by
  simpa [Byte.isDigit, UInt8.le_iff_toNat_le] using hb

theorem le_foldl_digits (t : Text) (n : Nat) :
    n ≤ t.foldl (fun n b => 10 * n + (b.toNat - 48)) n := by
  induction t generalizing n with
  | nil => exact Nat.le_refl n
  | cons b t ih =>
    calc n ≤ 10 * n + (b.toNat - 48) := by omega
      _ ≤ _ := ih _

theorem readDigits_decimal {t : Text} (hall : t.all Byte.isDigit = true) {n : Nat}
    (hlimit : t.foldl (fun n b => 10 * n + (b.toNat - 48)) n < unsignedLimit) :
    readDigits 10 n t = .ok (t.foldl (fun n b => 10 * n + (b.toNat - 48)) n) := by
  induction t generalizing n with
  | nil => rfl
  | cons b t ih =>
    rw [List.all_cons, Bool.and_eq_true] at hall
    have hunderscore : b ≠ Byte.underscore := by
      rintro rfl
      exact absurd hall.1 (by decide)
    have hdigit := isDigit_range hall.1
    have hstep : 10 * n + (b.toNat - 48) < unsignedLimit :=
      Nat.lt_of_le_of_lt (le_foldl_digits t _) hlimit
    rw [readDigits, if_neg hunderscore, digitValue?_digit hall.1]
    dsimp only
    rw [if_neg (by omega), if_neg (by omega)]
    exact ih hall.2 hlimit

theorem underscoresBetween_digits {t : Text} (hall : t.all Byte.isDigit = true) {seen : Before}
    (hseen : seen ≠ .underscore) : underscoresBetween Byte.isDigit seen t = true := by
  induction t generalizing seen with
  | nil => simpa [underscoresBetween] using hseen
  | cons b t ih =>
    rw [List.all_cons, Bool.and_eq_true] at hall
    rw [underscoresBetween, if_pos hall.1]
    exact ih hall.2 (by decide)

theorem splitBase_decimal {t : Text} (h : t.head? ≠ some Byte.zero) : splitBase t = (10, t) := by
  unfold splitBase
  split
  · exact absurd rfl h
  · exact absurd rfl h
  · rfl

theorem underscoresInPlace_digits {t : Text} (h : t.head? ≠ some Byte.zero)
    (hall : t.all Byte.isDigit = true) : underscoresInPlace t = true := by
  unfold underscoresInPlace
  split
  · exact absurd rfl h
  · exact underscoresBetween_digits hall (by decide)

theorem head_ofNat {n : Nat} (hn : 0 < n) : (ofNat n).head? ≠ some Byte.zero := by
  induction n using Nat.strongRecOn with
  | ind n ih =>
    by_cases hsmall : n < 10
    · have hall : ∀ m < 10, 0 < m → (ofNat m).head? ≠ some Byte.zero := by decide
      exact hall n hsmall hn
    · have hdigits : ofNat n = ofNat (n / 10) ++ [(Nat.digitChar (n % 10)).toNat.toUInt8] := by
        rw [ofNat, digits, Nat.toDigits_of_base_le (by decide) (by omega), List.map_append]
        rfl
      obtain ⟨b, rest, hcons⟩ := List.exists_cons_of_ne_nil (ofNat_ne_nil (n / 10))
      have hfirst := ih (n / 10) (by omega) (by omega)
      rw [hcons] at hfirst
      rwa [hdigits, hcons]

theorem readInteger_digits {t body : Text} {negative : Bool}
    (hsign : splitSign t = (negative, body)) (hne : body ≠ [])
    (hall : body.all Byte.isDigit = true) (hzero : body.head? ≠ some Byte.zero)
    (hlimit : decimalValue body < unsignedLimit) :
    readInteger t = applySign negative (decimalValue body) := by
  have hempty : body.isEmpty = false := by simpa using hne
  have hdigits : readDigits 10 0 body = .ok (decimalValue body) := readDigits_decimal hall hlimit
  rw [readInteger, hsign]
  simp only [hempty, splitBase_decimal hzero, hdigits, underscoresInPlace_digits hzero hall,
    Bool.false_eq_true, if_false, if_true]

theorem natAbs_lt_unsignedLimit (w : Word) : w.toInt.natAbs < unsignedLimit := by
  have hle : -9223372036854775808 ≤ w.toInt := w.minValue_le_toInt
  have hge : w.toInt ≤ 9223372036854775807 := w.toInt_le
  unfold unsignedLimit
  omega

/-- A word other than zero is read back from its sign and its digits. -/
theorem readInteger_natAbs {w : Word} (hw : w ≠ 0) {t : Text} {negative : Bool}
    (hsign : splitSign t = (negative, ofNat w.toInt.natAbs))
    (hvalue : w.toInt = if negative then -(w.toInt.natAbs : Int) else w.toInt.natAbs) :
    readInteger t = .ok w := by
  have hpos : 0 < w.toInt.natAbs := by
    rw [Int.natAbs_pos]
    intro hzero
    exact hw (Int64.toInt_inj.1 hzero)
  have hread := readInteger_digits hsign (ofNat_ne_nil _) (all_isDigit_ofNat _) (head_ofNat hpos)
    (by rw [decimalValue_ofNat]; exact natAbs_lt_unsignedLimit w)
  rw [hread, decimalValue_ofNat]
  exact applySign_toInt hvalue

end Text
end WordC
