import WordC.Token.Lexer
/-!
What the scanner makes of a text.

Every token it finds is proper: its content is a spelling of its kind.  A text
has no more tokens than bytes.
-/

namespace WordC
namespace Token

/-- The content is a spelling of the kind. -/
def Proper (t : Token) : Prop :=
  if t.kind = .number then t.content ≠ [] ∧ t.content.all Byte.isDigit = true
  else if t.kind = .name then t.content.isSymbolName = true ∧ wordKind t.content = .name
  else t.content = t.kind.text

theorem Proper.number {t : Token} (h : t.Proper) (hk : t.kind = .number) :
    t.content ≠ [] ∧ t.content.all Byte.isDigit = true := by
  rwa [Proper, if_pos hk] at h

theorem Proper.name {t : Token} (h : t.Proper) (hk : t.kind = .name) :
    t.content.isSymbolName = true ∧ wordKind t.content = .name := by
  rwa [Proper, if_neg (by simp [hk]), if_pos hk] at h

/-- A kind found by its spelling in a list of kinds. -/
theorem proper_of_find? {kinds : List Kind} {word : Text} {k : Kind}
    (h : kinds.find? (·.text = word) = some k) (hk : k ≠ .number ∧ k ≠ .name) (p : Place) :
    Proper ⟨k, word, p⟩ := by
  have htext : k.text = word := by simpa using List.find?_some h
  rw [Proper, if_neg hk.1, if_neg hk.2]
  exact htext.symm

theorem proper_word {word : Text} (hword : word.isSymbolName = true) (p : Place) :
    Proper ⟨wordKind word, word, p⟩ := by
  cases hfind : [Kind.returnWord, .ifWord, .elseWord, .whileWord, .forWord].find? (·.text = word)
    with
  | none =>
    have hkind : wordKind word = .name := by rw [wordKind, hfind]
    rw [hkind, Proper, if_neg (by simp), if_pos rfl]
    exact ⟨hword, hkind⟩
  | some k =>
    have hkind : wordKind word = k := by rw [wordKind, hfind]
    rw [hkind]
    refine proper_of_find? hfind ?_ p
    have hmem := List.mem_of_find?_eq_some hfind
    revert hmem
    cases k <;> simp

theorem proper_symbol {b : UInt8} {rest content : Text} {k : Kind}
    (h : symbol? b rest = some (k, content)) (p : Place) : Proper ⟨k, content, p⟩ := by
  have single : ∀ {k content}, (singleKind? b).map (·, [b]) = some (k, content) →
      Proper ⟨k, content, p⟩ := by
    intro k content hsingle
    obtain ⟨k', hfind, heq⟩ := Option.map_eq_some_iff.1 hsingle
    obtain ⟨rfl, rfl⟩ := Prod.mk.inj heq
    refine proper_of_find? hfind ?_ p
    have hmem := List.mem_of_find?_eq_some hfind
    revert hmem
    cases k' <;> simp
  cases rest with
  | nil => exact single h
  | cons c rest =>
    rw [symbol?] at h
    split at h
    · next k' hfind =>
      obtain ⟨rfl, rfl⟩ := Prod.mk.inj (Option.some.inj h)
      refine proper_of_find? hfind ?_ p
      have hmem := List.mem_of_find?_eq_some hfind
      revert hmem
      cases k' <;> simp
    · exact single h

theorem proper_lexeme {b : UInt8} {rest content : Text} {k : Kind}
    (h : lexeme? b rest = some (k, content)) (p : Place) : Proper ⟨k, content, p⟩ := by
  unfold lexeme? at h
  split at h
  · next hb =>
    obtain ⟨rfl, rfl⟩ := Prod.mk.inj (Option.some.inj h)
    rw [Proper, if_pos rfl]
    refine ⟨by simp, ?_⟩
    rw [List.all_cons, hb, Bool.true_and]
    exact List.all_takeWhile
  · split at h
    · next hb =>
      obtain ⟨rfl, rfl⟩ := Prod.mk.inj (Option.some.inj h)
      refine proper_word ?_ p
      rw [Text.isSymbolName, hb, Bool.true_and]
      exact List.all_takeWhile
    · exact proper_symbol h p

/-- A scan ends behind a gap or takes one token and goes on. -/
theorem scanFrom_cases {bound : Nat} {p : Place} {text : Text} {tokens : Tokens}
    (h : scanFrom (bound + 1) p text = .ok tokens) :
    (∃ p', skipGap .blank p text = .ok (p', []) ∧ tokens = ⟨[], p'⟩) ∨
      ∃ p' b rest kind content tokens',
      skipGap .blank p text = .ok (p', b :: rest) ∧ lexeme? b rest = some (kind, content) ∧
      scanFrom bound (p'.after content) ((b :: rest).drop content.length) = .ok tokens' ∧
      tokens = { tokens' with body := ⟨kind, content, p'⟩ :: tokens'.body } := by
  rw [scanFrom] at h
  split at h
  · cases h
  · next p' hgap =>
    cases h
    exact .inl ⟨p', hgap, rfl⟩
  · next p' b rest hgap =>
    split at h
    · cases h
    · next kind content hlex =>
      split at h
      · cases h
      · next tokens' hrest =>
        cases h
        exact .inr ⟨p', b, rest, kind, content, tokens', hgap, hlex, hrest, rfl⟩

theorem proper_of_scanFrom {bound : Nat} {p : Place} {text : Text} {tokens : Tokens}
    (h : scanFrom bound p text = .ok tokens) : ∀ t ∈ tokens.body, t.Proper := by
  induction bound generalizing p text tokens with
  | zero =>
    cases h
    simp
  | succ bound ih =>
    obtain ⟨p', -, rfl⟩ | ⟨p', b, rest, kind, content, tokens', -, hlex, hrest, rfl⟩ :=
      scanFrom_cases h
    · simp
    · intro t ht
      rcases List.mem_cons.1 ht with rfl | ht
      · exact proper_lexeme hlex p'
      · exact ih hrest t ht

/-- Every token of a source is proper. -/
theorem proper_of_scan {text : Text} {tokens : Tokens} (h : scan text = .ok tokens) :
    ∀ t ∈ tokens.body, t.Proper :=
  proper_of_scanFrom h

theorem length_le_bound {bound : Nat} {p : Place} {text : Text} {tokens : Tokens}
    (h : scanFrom bound p text = .ok tokens) : tokens.body.length ≤ bound := by
  induction bound generalizing p text tokens with
  | zero =>
    cases h
    simp
  | succ bound ih =>
    obtain ⟨p', -, rfl⟩ | ⟨p', b, rest, kind, content, tokens', -, -, hrest, rfl⟩ :=
      scanFrom_cases h
    · simp
    · have := ih hrest
      rw [List.length_cons]
      omega

/-- A source has no more tokens than bytes. -/
theorem length_le_of_scan {text : Text} {tokens : Tokens} (h : scan text = .ok tokens) :
    tokens.body.length ≤ text.length :=
  length_le_bound h

/-! ## Places -/

theorem pos_le_after (p : Place) (t : Text) : p.pos ≤ (p.after t).pos := by
  rw [Place.pos_after]
  exact Nat.le_add_right _ _

/-- A gap is never skipped backwards. -/
theorem pos_le_of_skipGap {gap : Gap} {p p' : Place} {text rest : Text}
    (h : skipGap gap p text = .ok (p', rest)) : p.pos ≤ p'.pos := by
  fun_induction skipGap gap p text with
  | case1 p | case6 p =>
    cases h
    exact Nat.le_refl _
  | case2 p rest ih | case3 p rest ih => exact Nat.le_trans (pos_le_after p _) (ih h)
  | case4 p b rest _ _ _ ih => exact Nat.le_trans (pos_le_after p [b]) (ih h)
  | case5 p b rest _ _ _ =>
    cases h
    exact Nat.le_refl _
  | case7 p rest ih => exact Nat.le_trans (pos_le_after p [Byte.newline]) (ih h)
  | case8 p b rest _ ih => exact Nat.le_trans (pos_le_after p [b]) (ih h)
  | case9 opened p => cases h
  | case10 opened p rest ih => exact Nat.le_trans (pos_le_after p _) (ih h)
  | case11 opened p b rest _ ih => exact Nat.le_trans (pos_le_after p [b]) (ih h)

/-- A token has a byte. -/
theorem length_pos_of_lexeme? {b : UInt8} {rest content : Text} {k : Kind}
    (h : lexeme? b rest = some (k, content)) : 0 < content.length := by
  have hsingle : ∀ {k content}, (singleKind? b).map (·, [b]) = some (k, content) →
      0 < content.length := by
    intro k content hsingle
    obtain ⟨k', -, heq⟩ := Option.map_eq_some_iff.1 hsingle
    cases heq
    exact Nat.zero_lt_one
  unfold lexeme? symbol? at h
  split at h
  · cases h
    exact Nat.succ_pos _
  · split at h
    · cases h
      exact Nat.succ_pos _
    · split at h
      · split at h
        · cases h
          exact Nat.succ_pos _
        · exact hsingle h
      · exact hsingle h

end Token

/-- The place of a token, or of the end. -/
def Tokens.placeAt (tokens : Tokens) (k : Nat) : Place :=
  match tokens.body[k]? with
  | some t => t.place
  | none => tokens.ending

namespace Token

theorem pos_lt_of_scanFrom {bound : Nat} {p : Place} {text : Text} {tokens : Tokens}
    (h : scanFrom bound p text = .ok tokens) :
    p.pos ≤ (tokens.placeAt 0).pos ∧
      ∀ k < tokens.body.length, (tokens.placeAt k).pos < (tokens.placeAt (k + 1)).pos := by
  induction bound generalizing p text tokens with
  | zero =>
    cases h
    exact ⟨Nat.le_refl _, fun k hk => absurd hk (Nat.not_lt_zero k)⟩
  | succ bound ih =>
    obtain ⟨p', hgap, rfl⟩ | ⟨p', b, rest, kind, content, tokens', hgap, hlex, hrest, rfl⟩ :=
      scanFrom_cases h
    · exact ⟨pos_le_of_skipGap hgap, fun k hk => absurd hk (Nat.not_lt_zero k)⟩
    · obtain ⟨hfirst, hothers⟩ := ih hrest
      refine ⟨pos_le_of_skipGap hgap, fun k hk => ?_⟩
      cases k with
      | zero =>
        have hlength := length_pos_of_lexeme? hlex
        rw [Place.pos_after] at hfirst
        exact Nat.lt_of_lt_of_le (Nat.lt_add_of_pos_right hlength) hfirst
      | succ k => exact hothers k (Nat.lt_of_succ_lt_succ hk)

theorem pos_lt_of_lt {text : Text} {tokens : Tokens} (h : scan text = .ok tokens) {j k : Nat}
    (hjk : j < k) (hk : k ≤ tokens.body.length) :
    (tokens.placeAt j).pos < (tokens.placeAt k).pos := by
  induction hjk with
  | refl => exact (pos_lt_of_scanFrom h).2 j hk
  | @step m _ ih => exact Nat.lt_trans (ih (Nat.le_of_succ_le hk)) ((pos_lt_of_scanFrom h).2 m hk)

/-- No two tokens of a source have one place. -/
theorem placeAt_injective {text : Text} {tokens : Tokens} (h : scan text = .ok tokens) {j k : Nat}
    (hj : j ≤ tokens.body.length) (hk : k ≤ tokens.body.length)
    (heq : tokens.placeAt j = tokens.placeAt k) : j = k := by
  have hpos := congrArg Place.pos heq
  rcases Nat.lt_trichotomy j k with hlt | heq | hlt
  · exact absurd hpos (Nat.ne_of_lt (pos_lt_of_lt h hlt hk))
  · exact heq
  · exact absurd hpos.symm (Nat.ne_of_lt (pos_lt_of_lt h hlt hj))

end Token
end WordC
