import WordC.Proofs.Scan
/-!
The tokens of a text that is put together from pieces.

`Scans t Q` says that the tokens of `t` have the property `Q`, wherever the text
stands.  A piece written in front of `t` adds its own tokens in front of those of
`t`, as long as what follows cannot lengthen its last token: `Apart` says that of
a word or a number, and symbols are printed with a blank behind them where it
matters.
-/

namespace WordC
namespace Token

/-- The tokens of the text have the property, whatever the place and the bound of
the scan. -/
def Scans (text : Text) (Q : List Token → Prop) : Prop :=
  ∀ (bound : Nat) (p : Place), text.length ≤ bound →
    ∃ tokens, scanFrom bound p text = .ok tokens ∧ Q tokens.body

/-- A token of the given kind and content in front of tokens with a property. -/
def Leads (kind : Kind) (content : Text) (Q : List Token → Prop) (ts : List Token) : Prop :=
  ∃ t rest, ts = t :: rest ∧ t.kind = kind ∧ t.content = content ∧ Q rest

/-- The symbols that begin no longer symbol. -/
def marks : List Kind := [.leftParen, .rightParen, .leftBrace, .rightBrace, .semicolon]

def keywords : List Kind := [.returnWord, .ifWord, .elseWord, .whileWord, .forWord]

/-- No word or number goes on in the text. -/
def Apart (text : Text) : Prop := ∀ b ∈ text.head?, Byte.isNamePart b = false

theorem apart_cons {b : UInt8} (h : Byte.isNamePart b = false) (rest : Text) :
    Apart (b :: rest) := by
  intro c hc
  obtain rfl : b = c := Option.some.inj hc
  exact h

theorem apart_mark {kind : Kind} (hkind : kind ∈ marks) (text : Text) :
    Apart (kind.text ++ text) := by
  simp only [marks, List.mem_cons, List.not_mem_nil, or_false] at hkind
  rcases hkind with rfl | rfl | rfl | rfl | rfl
  all_goals exact apart_cons (by decide) text

/-- The scanner takes a whole run of the bytes of a class. -/
theorem takeWhile_append_apart {class' : UInt8 → Bool} {run text : Text}
    (hrun : run.all class' = true) (hclass : ∀ b, Byte.isNamePart b = false → class' b = false)
    (h : Apart text) : (run ++ text).takeWhile class' = run := by
  rw [List.takeWhile_append_of_pos fun b hb => List.all_eq_true.1 hrun b hb]
  cases text with
  | nil => simp
  | cons b rest => simp [hclass b (h b rfl)]

namespace Scans

variable {text : Text} {Q : List Token → Prop}

theorem nil (h : Q []) : Scans [] Q := by
  intro bound p _
  cases bound with
  | zero => exact ⟨_, rfl, h⟩
  | succ bound => exact ⟨_, rfl, h⟩

theorem mono {R : List Token → Prop} (h : Scans text Q) (hQ : ∀ ts, Q ts → R ts) :
    Scans text R := by
  intro bound p hbound
  obtain ⟨tokens, hscan, hbody⟩ := h bound p hbound
  exact ⟨tokens, hscan, hQ _ hbody⟩

end Scans

theorem skipGap_blank {b : UInt8} (hb : Byte.isBlank b = true) (p : Place) (rest : Text) :
    skipGap .blank p (b :: rest) = skipGap .blank (p.next b) rest := by
  rw [skipGap.eq_4, if_pos hb]
  · intro _ hslash _
    exact absurd (hslash ▸ hb) (by decide)
  · intro _ hslash _
    exact absurd (hslash ▸ hb) (by decide)

/-- Neither a blank nor a comment begins with the text. -/
def opensToken : Text → Bool
  | [] => false
  | [b] => !Byte.isBlank b
  | b :: c :: _ => !Byte.isBlank b && !(b == Byte.slash && (c == Byte.slash || c == Byte.star))

theorem skipGap_opensToken {b : UInt8} {rest : Text} (h : opensToken (b :: rest) = true)
    (p : Place) : skipGap .blank p (b :: rest) = .ok (p, b :: rest) := by
  have hb : ¬ Byte.isBlank b = true := by
    cases rest <;> simp_all [opensToken]
  rw [skipGap.eq_4, if_neg hb]
  · intro rest' hslash hrest
    rw [hslash, hrest] at h
    exact Bool.false_ne_true h
  · intro rest' hslash hrest
    rw [hslash, hrest] at h
    exact Bool.false_ne_true h

theorem opensToken_of_ne {b : UInt8} (hblank : Byte.isBlank b = false) (hslash : b ≠ Byte.slash)
    (rest : Text) : opensToken (b :: rest) = true := by
  cases rest with
  | nil => simp [opensToken, hblank]
  | cons c rest => simp [opensToken, hblank, hslash]

theorem opensToken_namePart {b : UInt8} (hb : Byte.isNamePart b = true) (rest : Text) :
    opensToken (b :: rest) = true := by
  simp only [Byte.isNamePart, Byte.isLetter, Byte.isUnderscore, Byte.underscore,
    Byte.isDigit, Bool.or_eq_true, Bool.and_eq_true, decide_eq_true_eq, UInt8.le_iff_toNat_le, ← UInt8.toNat_inj,
    UInt8.reduceToNat] at hb
  refine opensToken_of_ne ?_ ?_ rest
  · simp only [Byte.isBlank, Bool.or_eq_false_iff, Bool.and_eq_false_iff, decide_eq_false_iff_not,
      UInt8.le_iff_toNat_le, ← UInt8.toNat_inj, UInt8.reduceToNat]
    omega
  · simp only [ne_eq, Byte.slash, ← UInt8.toNat_inj, UInt8.reduceToNat]
    omega

theorem not_isDigit_of_isNameStart {b : UInt8} (hb : Byte.isNameStart b = true) :
    ¬ Byte.isDigit b = true := by
  simp only [Byte.isNameStart, Byte.isLetter, Byte.isUnderscore, Byte.underscore,
    Byte.isDigit, Bool.or_eq_true, Bool.and_eq_true, decide_eq_true_eq, UInt8.le_iff_toNat_le, ← UInt8.toNat_inj,
    UInt8.reduceToNat] at hb ⊢
  omega

namespace Scans

variable {text : Text} {Q : List Token → Prop}

theorem blank {b : UInt8} (hb : Byte.isBlank b = true) (h : Scans text Q) :
    Scans (b :: text) Q := by
  intro bound p hbound
  obtain ⟨bound, rfl⟩ : ∃ k, bound = k + 1 := ⟨bound - 1, by simp at hbound; omega⟩
  have hskip : scanFrom (bound + 1) p (b :: text) = scanFrom (bound + 1) (p.next b) text := by
    rw [scanFrom, scanFrom, skipGap_blank hb]
  rw [hskip]
  exact h (bound + 1) (p.next b) (Nat.le_of_succ_le hbound)

/-- One lexeme in front of a text. -/
theorem lexeme {b : UInt8} {rest content : Text} {kind : Kind}
    (hopens : opensToken (b :: rest) = true) (hlexeme : lexeme? b rest = some (kind, content))
    (hsplit : b :: rest = content ++ text) (hne : content ≠ []) (h : Scans text Q) :
    Scans (b :: rest) (Leads kind content Q) := by
  intro bound p hbound
  have hlength : 0 < content.length := List.length_pos_iff.2 hne
  have hle : content.length + text.length ≤ bound := by
    rwa [hsplit, List.length_append] at hbound
  obtain ⟨bound, rfl⟩ : ∃ k, bound = k + 1 := ⟨bound - 1, by omega⟩
  obtain ⟨tokens, hscan, hbody⟩ := h bound (p.after content) (by omega)
  have hdrop : (b :: rest).drop content.length = text := by rw [hsplit, List.drop_left]
  refine ⟨{ tokens with body := ⟨kind, content, p⟩ :: tokens.body }, ?_, ?_⟩
  · simp only [scanFrom, skipGap_opensToken hopens, hlexeme, hdrop, hscan]
  · exact ⟨_, _, rfl, rfl, rfl, hbody⟩

theorem number {digits : Text} (hne : digits ≠ []) (hall : digits.all Byte.isDigit = true)
    (hapart : Apart text) (h : Scans text Q) :
    Scans (digits ++ text) (Leads .number digits Q) := by
  cases digits with
  | nil => exact absurd rfl hne
  | cons b rest =>
    rw [List.all_cons, Bool.and_eq_true] at hall
    obtain ⟨hb, hrest⟩ := hall
    have hrun : (rest ++ text).takeWhile Byte.isDigit = rest :=
      takeWhile_append_apart hrest (fun c hc => (by simp_all [Byte.isNamePart])) hapart
    have hlexeme : lexeme? b (rest ++ text) = some (.number, b :: rest) := by
      rw [lexeme?, if_pos hb, hrun]
    exact lexeme (opensToken_namePart (by simp [Byte.isNamePart, hb]) _) hlexeme rfl hne h

theorem word {word : Text} (hword : word.isSymbolName = true) (hapart : Apart text)
    (h : Scans text Q) : Scans (word ++ text) (Leads (wordKind word) word Q) := by
  cases word with
  | nil => cases hword
  | cons b rest =>
    rw [Text.isSymbolName, Bool.and_eq_true] at hword
    obtain ⟨hb, hrest⟩ := hword
    have hrun : (rest ++ text).takeWhile Byte.isNamePart = rest :=
      takeWhile_append_apart hrest (fun _ hc => hc) hapart
    have hlexeme : lexeme? b (rest ++ text) = some (wordKind (b :: rest), b :: rest) := by
      rw [lexeme?, if_neg (not_isDigit_of_isNameStart hb), if_pos hb, hrun]
    exact lexeme (opensToken_namePart (by simp_all [Byte.isNamePart, Byte.isNameStart]) _) hlexeme rfl (List.cons_ne_nil b rest) h

theorem mark (kind : Kind) (hkind : kind ∈ marks) (h : Scans text Q) :
    Scans (kind.text ++ text) (Leads kind kind.text Q) := by
  simp only [marks, List.mem_cons, List.not_mem_nil, or_false] at hkind
  rcases hkind with rfl | rfl | rfl | rfl | rfl
  all_goals exact lexeme (by cases text <;> rfl) (by cases text <;> rfl) rfl (by decide) h

theorem keyword (kind : Kind) (hkind : kind ∈ keywords) (h : Scans text Q) :
    Scans (kind.text ++ Byte.space :: text) (Leads kind kind.text Q) := by
  have hscans := fun (hword : kind.text.isSymbolName = true) =>
    word hword (apart_cons (by decide) text) (blank (b := Byte.space) rfl h)
  simp only [keywords, List.mem_cons, List.not_mem_nil, or_false] at hkind
  rcases hkind with rfl | rfl | rfl | rfl | rfl
  all_goals exact hscans (by decide)

end Scans
end Token
end WordC
