import Mathlib
import WordC.Proofs.Scan.Spacing
/-!
The scanner takes the longest token.

`Lexeme` is the language of the tokens, each kind by its spellings.  `Lexes` cuts a text
into tokens with spacings before them, where every token is the longest one that starts
at its place, and `Stuck` is a text that goes on with none.  Every text is cut up to its
end or to a place where it is stuck, and the scanner finds that cut, so there is one only.
-/

namespace WordC
namespace Token

/-! ## The longest token -/

/-- Keywords and symbols have one spelling each. -/
def spellings : List (Kind × Text) :=
  [(.returnWord, utf8 "return"), (.ifWord, utf8 "if"), (.elseWord, utf8 "else"),
    (.whileWord, utf8 "while"), (.forWord, utf8 "for"), (.leftParen, utf8 "("),
    (.rightParen, utf8 ")"), (.leftBrace, [Byte.leftBrace]), (.rightBrace, [Byte.rightBrace]),
    (.semicolon, utf8 ";"), (.plus, utf8 "+"), (.minus, utf8 "-"), (.star, utf8 "*"),
    (.slash, utf8 "/"), (.assign, utf8 "="), (.equal, utf8 "=="), (.notEqual, utf8 "!="),
    (.less, utf8 "<"), (.lessEqual, utf8 "<="), (.greater, utf8 ">"), (.greaterEqual, utf8 ">=")]

/-- Messages name keywords and symbols as they are spelled. -/
theorem mem_spellings {k : Kind} {text : Text} :
    (k, text) ∈ spellings ↔ k ≠ .number ∧ k ≠ .name ∧ text = k.text := by
  cases k with
  | number | name => simp [spellings]
  | _ => simp [spellings, Kind.text]

/-- The content is a spelling of the kind. -/
inductive Lexeme : Kind → Text → Prop where
  | number {digits : Text} : digits ≠ [] → digits.all Byte.isDigit = true → Lexeme .number digits
  | name {word : Text} :
      word.isSymbolName = true → (∀ k ∈ keywords, (k, word) ∉ spellings) → Lexeme .name word
  | fixed {k : Kind} {text : Text} : (k, text) ∈ spellings → Lexeme k text

/-- The token is the longest one in front of `rest`, and no comment starts in its place. -/
structure Longest (kind : Kind) (content rest : Text) : Prop where
  spelled : Lexeme kind content
  noComment : ¬ OpensComment (content ++ rest)
  longest : ∀ k other, Lexeme k other → other <+: content ++ rest → other.length ≤ content.length

theorem wordKind_eq_name {word : Text} :
    wordKind word = .name ↔ ∀ k ∈ keywords, (k, word) ∉ spellings := by
  have hkeyword : ∀ k ∈ keywords, ((k, word) ∉ spellings ↔ word ≠ k.text) := by
    intro k hk
    have hfixed : k ≠ .number ∧ k ≠ .name := by
      constructor <;> rintro rfl <;> simp [keywords] at hk
    rw [mem_spellings, and_iff_right hfixed.1, and_iff_right hfixed.2]
  rw [forall₂_congr hkeyword, wordKind]
  cases hfind : [Kind.returnWord, .ifWord, .elseWord, .whileWord, .forWord].find? (·.text = word)
    with
  | none =>
    have hnone : ∀ k ∈ keywords, ¬ k.text = word := by simpa [keywords] using hfind
    exact iff_of_true rfl fun k hk heq => hnone k hk heq.symm
  | some k =>
    have hmem : k ∈ keywords := List.mem_of_find?_eq_some hfind
    have htext : k.text = word := by simpa using List.find?_some hfind
    refine iff_of_false ?_ fun h => h k hmem htext.symm
    rintro rfl
    simp [keywords] at hmem

theorem Proper.lexeme {t : Token} (h : t.Proper) : Lexeme t.kind t.content := by
  by_cases hnumber : t.kind = .number
  · obtain ⟨hne, hall⟩ := h.number hnumber
    rw [hnumber]
    exact .number hne hall
  by_cases hname : t.kind = .name
  · obtain ⟨hword, hkind⟩ := h.name hname
    rw [hname]
    exact .name hword (wordKind_eq_name.1 hkind)
  · rw [Proper, if_neg hnumber, if_neg hname] at h
    rw [h]
    exact .fixed (mem_spellings.2 ⟨hnumber, hname, rfl⟩)

/-- A word is a run of the bytes of names. -/
theorem lexeme?_word {b : UInt8} (hb : Byte.isNameStart b = true) (rest : Text) :
    lexeme? b rest = some (wordKind (b :: rest.takeWhile Byte.isNamePart),
      b :: rest.takeWhile Byte.isNamePart) := by
  rw [lexeme?, if_neg (not_isDigit_of_isNameStart hb), if_pos hb]

/-- What a token can be: a run of digits, a word, or one of the symbols. -/
theorem Lexeme.shape {k : Kind} {content : Text} (h : Lexeme k content) :
    (k = .number ∧ content ≠ [] ∧ content.all Byte.isDigit = true) ∨
    (content.isSymbolName = true ∧ wordKind content = k) ∨
    ∃ b, Byte.isDigit b = false ∧ Byte.isNameStart b = false ∧ Byte.isBlank b = false ∧
      (content = [b] ∧ singleKind? b = some k ∨
        ∃ c, content = [b, c] ∧ pairKind? b c = some k) := by
  cases h with
  | number hne hall => exact .inl ⟨rfl, hne, hall⟩
  | name hword hkind => exact .inr (.inl ⟨hword, wordKind_eq_name.2 hkind⟩)
  | fixed hspelled =>
    obtain ⟨hnumber, hname, rfl⟩ := mem_spellings.1 hspelled
    cases k with
    | number => exact absurd rfl hnumber
    | name => exact absurd rfl hname
    | returnWord | ifWord | elseWord | whileWord | forWord =>
      exact .inr (.inl ⟨by decide, by decide⟩)
    | equal | notEqual | lessEqual | greaterEqual =>
      exact .inr (.inr ⟨_, by decide, by decide, by decide, .inr ⟨_, rfl, by decide⟩⟩)
    | _ => exact .inr (.inr ⟨_, by decide, by decide, by decide, .inl ⟨rfl, by decide⟩⟩)

theorem Lexeme.exists_cons {k : Kind} {content : Text} (h : Lexeme k content) :
    ∃ b rest, content = b :: rest := by
  rcases h.shape with ⟨-, hne, -⟩ | ⟨hword, -⟩ | ⟨b, -, -, -, ⟨rfl, -⟩ | ⟨c, rfl, -⟩⟩
  · exact List.exists_cons_of_ne_nil hne
  · cases content with
    | nil => cases hword
    | cons b rest => exact ⟨b, rest, rfl⟩
  · exact ⟨b, [], rfl⟩
  · exact ⟨b, [c], rfl⟩

theorem lexeme?_symbol {b : UInt8} (hdigit : Byte.isDigit b = false)
    (hstart : Byte.isNameStart b = false) (rest : Text) : lexeme? b rest = symbol? b rest := by
  simp [lexeme?, hdigit, hstart]

/-- By itself, a token is found as it is. -/
theorem lexeme?_self {k : Kind} {b : UInt8} {rest : Text} (h : Lexeme k (b :: rest)) :
    lexeme? b rest = some (k, b :: rest) := by
  rcases h.shape with ⟨rfl, -, hall⟩ | ⟨hword, hkind⟩ | ⟨c, hdigit, hstart, -, hsymbol⟩
  · rw [List.all_cons, Bool.and_eq_true, List.all_eq_true] at hall
    rw [lexeme?, if_pos hall.1, List.takeWhile_eq_self_iff.2 hall.2]
  · rw [Text.isSymbolName, Bool.and_eq_true, List.all_eq_true] at hword
    rw [lexeme?_word hword.1, List.takeWhile_eq_self_iff.2 hword.2, hkind]
  · rcases hsymbol with ⟨hcontent, hfind⟩ | ⟨d, hcontent, hfind⟩
    · obtain ⟨rfl, rfl⟩ := List.cons.inj hcontent
      simp [lexeme?_symbol hdigit hstart, symbol?, hfind]
    · obtain ⟨rfl, rfl⟩ := List.cons.inj hcontent
      simp [lexeme?_symbol hdigit hstart, symbol?, hfind]

theorem Lexeme.kind_eq {k k' : Kind} {content : Text} (h : Lexeme k content)
    (h' : Lexeme k' content) : k = k' := by
  obtain ⟨b, rest, rfl⟩ := h.exists_cons
  have heq := (lexeme?_self h).symm.trans (lexeme?_self h')
  exact congrArg Prod.fst (Option.some.inj heq)

theorem length_le_takeWhile {class' : UInt8 → Bool} {run text : Text}
    (hrun : run.all class' = true) (h : run <+: text) :
    run.length ≤ (text.takeWhile class').length := by
  obtain ⟨rest, rfl⟩ := h
  rw [List.takeWhile_append_of_pos fun b hb => List.all_eq_true.1 hrun b hb, List.length_append]
  exact Nat.le_add_right _ _

/-- Where a token starts, the scanner finds one that is at least as long. -/
theorem exists_lexeme?_of_prefix {k : Kind} {content : Text} (h : Lexeme k content) {b : UInt8}
    {rest : Text} (hstarts : content <+: b :: rest) :
    ∃ kind found, lexeme? b rest = some (kind, found) ∧ content.length ≤ found.length := by
  obtain ⟨c, run, rfl⟩ := h.exists_cons
  obtain ⟨rfl, hrun⟩ := List.cons_prefix_cons.1 hstarts
  rcases h.shape with ⟨-, -, hall⟩ | ⟨hword, -⟩ | ⟨d, hdigit, hstart, -, hsymbol⟩
  · rw [List.all_cons, Bool.and_eq_true] at hall
    refine ⟨_, _, by rw [lexeme?, if_pos hall.1], ?_⟩
    exact Nat.succ_le_succ (length_le_takeWhile hall.2 hrun)
  · rw [Text.isSymbolName, Bool.and_eq_true] at hword
    refine ⟨_, _, lexeme?_word hword.1 rest, ?_⟩
    exact Nat.succ_le_succ (length_le_takeWhile hword.2 hrun)
  · rcases hsymbol with ⟨hcontent, hfind⟩ | ⟨e, hcontent, hfind⟩
    · obtain ⟨rfl, rfl⟩ := List.cons.inj hcontent
      rw [lexeme?_symbol hdigit hstart]
      cases rest with
      | nil => exact ⟨k, [c], by simp [symbol?, hfind], Nat.le_refl _⟩
      | cons e rest =>
        rw [symbol?]
        cases pairKind? c e with
        | none => exact ⟨k, [c], by simp [hfind], Nat.le_refl _⟩
        | some kind => exact ⟨kind, [c, e], rfl, by simp⟩
    · obtain ⟨rfl, rfl⟩ := List.cons.inj hcontent
      obtain ⟨rest, rfl⟩ := hrun
      refine ⟨k, [c, e], ?_, Nat.le_refl _⟩
      simp [lexeme?_symbol hdigit hstart, symbol?, hfind]

theorem prefix_of_lexeme? {b : UInt8} {rest content : Text} {kind : Kind}
    (h : lexeme? b rest = some (kind, content)) : content <+: b :: rest := by
  have hsingle : ∀ {kind content}, (singleKind? b).map (·, [b]) = some (kind, content) →
      content <+: b :: rest := by
    intro kind content hsingle
    obtain ⟨k, -, heq⟩ := Option.map_eq_some_iff.1 hsingle
    cases heq
    exact List.prefix_append [b] rest
  unfold lexeme? at h
  split at h
  · cases h
    exact List.cons_prefix_cons.2 ⟨rfl, List.takeWhile_prefix _⟩
  · split at h
    · cases h
      exact List.cons_prefix_cons.2 ⟨rfl, List.takeWhile_prefix _⟩
    · cases rest with
      | nil => exact hsingle h
      | cons c rest =>
        rw [symbol?] at h
        split at h
        · cases h
          exact List.prefix_append [b, c] rest
        · exact hsingle h

theorem longest_of_lexeme? {b : UInt8} {rest content : Text} {kind : Kind}
    (hcomment : ¬ OpensComment (b :: rest)) (h : lexeme? b rest = some (kind, content)) :
    ∃ rest', b :: rest = content ++ rest' ∧ Longest kind content rest' := by
  obtain ⟨rest', hrest⟩ := prefix_of_lexeme? h
  refine ⟨rest', hrest.symm, (proper_lexeme h .start).lexeme, ?_, fun k other hother hstarts => ?_⟩
  · rwa [hrest]
  · rw [hrest] at hstarts
    obtain ⟨kind', found, hfound, hle⟩ := exists_lexeme?_of_prefix hother hstarts
    cases hfound.symm.trans h
    exact hle

/-- The scanner finds the longest token. -/
theorem lexeme?_of_longest {kind : Kind} {b : UInt8} {more rest : Text}
    (h : Longest kind (b :: more) rest) :
    lexeme? b (more ++ rest) = some (kind, b :: more) := by
  have hself : b :: more <+: b :: (more ++ rest) := List.prefix_append (b :: more) rest
  obtain ⟨kind', found, hfound, hle⟩ := exists_lexeme?_of_prefix h.spelled hself
  have hlexeme : Lexeme kind' found := (proper_lexeme hfound .start).lexeme
  have hstarts : found <+: b :: more ++ rest := prefix_of_lexeme? hfound
  have hlength : found.length = (b :: more).length :=
    Nat.le_antisymm (h.longest kind' found hlexeme hstarts) hle
  have hshorter : found <+: b :: more :=
    List.prefix_of_prefix_length_le hstarts (List.prefix_append _ _) (Nat.le_of_eq hlength)
  obtain rfl : found = b :: more := hshorter.eq_of_length hlength
  rw [hfound, hlexeme.kind_eq h.spelled]

theorem Longest.opensToken {kind : Kind} {b : UInt8} {more rest : Text}
    (h : Longest kind (b :: more) rest) : opensToken (b :: (more ++ rest)) = true := by
  rcases h.spelled.shape with ⟨-, -, hall⟩ | ⟨hword, -⟩ | ⟨c, -, -, hblank, hsymbol⟩
  · rw [List.all_cons, Bool.and_eq_true] at hall
    exact opensToken_namePart (by simp [Byte.isNamePart, hall.1]) _
  · rw [Text.isSymbolName, Byte.isNameStart, Bool.and_eq_true] at hword
    exact opensToken_namePart (by simp [Byte.isNamePart, hword.1]) _
  · have hb : b = c := by
      rcases hsymbol with ⟨heq, -⟩ | ⟨d, heq, -⟩
      · exact (List.cons.inj heq).1
      · exact (List.cons.inj heq).1
    rw [hb]
    exact opensToken_iff.2 ⟨Byte.isBlank_eq_false_iff.1 hblank, hb ▸ h.noComment⟩

/-! ## The cut of a text -/

/-- The text, which stands behind `before`, is cut into the tokens with spacings before
them, and `rest`. -/
inductive Lexes : Text → Text → List Token → Text → Prop where
  | nil {before rest : Text} : Lexes before rest [] rest
  | cons {before gap content text rest : Text} {kind : Kind} {ts : List Token} :
      Spacing gap (content ++ text) → Longest kind content text →
      Lexes (before ++ gap ++ content) text ts rest →
      Lexes before (gap ++ content ++ text) (⟨kind, content, .behind (before ++ gap)⟩ :: ts) rest

/-- No token can be cut off the text. -/
inductive Stuck : Text → Prop where
  | unclosed {text : Text} : Unclosed text → Stuck text
  /-- Neither a blank nor a comment nor a token starts here. -/
  | foreign {b : UInt8} {rest : Text} :
      b ∉ Byte.blanks → ¬ OpensComment (b :: rest) →
      (∀ k content, Lexeme k content → ¬ content <+: b :: rest) → Stuck (b :: rest)

theorem lexeme?_eq_none {b : UInt8} {rest : Text} :
    lexeme? b rest = none ↔ ∀ k content, Lexeme k content → ¬ content <+: b :: rest := by
  constructor
  · intro hnone k content hlexeme hstarts
    obtain ⟨kind, found, hfound, -⟩ := exists_lexeme?_of_prefix hlexeme hstarts
    cases hnone.symm.trans hfound
  · intro hforeign
    cases hfound : lexeme? b rest with
    | none => rfl
    | some found =>
      exact absurd (prefix_of_lexeme? hfound)
        (hforeign found.1 found.2 (proper_lexeme hfound .start).lexeme)

/-- Every text is cut, up to a spacing at its end or to a place where it is stuck. -/
theorem exists_lexes (before text : Text) :
    ∃ ts gap rest, Lexes before text ts (gap ++ rest) ∧ Spacing gap rest ∧
      (rest = [] ∨ Stuck rest) := by
  induction hn : text.length using Nat.strongRecOn generalizing before text with
  | ind n ih =>
    subst hn
    obtain ⟨gap, rest, rfl, hgap, hrest⟩ := exists_spacing text
    cases rest with
    | nil => exact ⟨[], gap, [], .nil, hgap, .inl rfl⟩
    | cons b tail =>
      rcases hrest with hnil | hopens | hunclosed
      · cases hnil
      · obtain ⟨hblank, hcomment⟩ := opensToken_iff.1 hopens
        cases hfound : lexeme? b tail with
        | none =>
          have hforeign := lexeme?_eq_none.1 hfound
          exact ⟨[], gap, b :: tail, .nil, hgap, .inr (.foreign hblank hcomment hforeign)⟩
        | some found =>
          obtain ⟨text', htail, hlongest⟩ := longest_of_lexeme? hcomment hfound
          obtain ⟨c, more, hcontent⟩ := hlongest.spelled.exists_cons
          have hlength : text'.length < (gap ++ b :: tail).length := by
            rw [htail, hcontent]
            simp
            omega
          obtain ⟨ts, gap', rest', hlexes, hgap', hrest'⟩ :=
            ih _ hlength (before ++ gap ++ found.2) text' rfl
          rw [htail] at hgap ⊢
          rw [← List.append_assoc]
          exact ⟨_, gap', rest', .cons hgap hlongest hlexes, hgap', hrest'⟩
      · exact ⟨[], gap, b :: tail, .nil, hgap, .inr (.unclosed hunclosed)⟩

/-! ## The scanner finds the cut -/

/-- Tokens in front of those of a scan. -/
def preceded (ts : List Token) (tokens : Tokens) : Tokens :=
  { tokens with body := ts ++ tokens.body }

theorem scanFrom_spacing {gap rest : Text} (h : Spacing gap rest) (bound : Nat) (p : Place) :
    scanFrom (bound + 1) p (gap ++ rest) = scanFrom (bound + 1) (p.after gap) rest := by
  rw [scanFrom, scanFrom, skipGap_spacing h]

theorem scanFrom_longest {kind : Kind} {content text : Text} (h : Longest kind content text)
    (bound : Nat) (p : Place) :
    scanFrom (bound + 1) p (content ++ text) =
      (scanFrom bound (p.after content) text).map (preceded [⟨kind, content, p⟩]) := by
  obtain ⟨b, more, rfl⟩ := h.spelled.exists_cons
  have hskip := skipGap_opensToken h.opensToken p
  have hdrop : (b :: (more ++ text)).drop (b :: more).length = text := List.drop_left
  rw [List.cons_append, scanFrom, hskip]
  simp only [lexeme?_of_longest h, hdrop]
  cases scanFrom bound (p.after (b :: more)) text <;> rfl

theorem scanFrom_end {gap : Text} (h : Spacing gap []) {bound : Nat} (hbound : gap.length ≤ bound)
    (p : Place) : scanFrom bound p gap = .ok ⟨[], p.after gap⟩ := by
  cases bound with
  | zero =>
    obtain rfl := List.length_eq_zero_iff.1 (Nat.le_zero.1 hbound)
    rfl
  | succ bound =>
    have hskip := scanFrom_spacing h bound p
    rw [List.append_nil] at hskip
    rw [hskip]
    rfl

theorem scanFrom_stuck {rest : Text} (h : Stuck rest) (bound : Nat) (p : Place) :
    ∃ r, scanFrom (bound + 1) p rest = .error r ∧ r.place = p := by
  cases h with
  | unclosed hunclosed =>
    rw [scanFrom, skipGap_of_unclosed hunclosed]
    exact ⟨_, rfl, rfl⟩
  | @foreign b rest hblank hcomment hforeign =>
    rw [scanFrom, skipGap_opensToken (opensToken_iff.2 ⟨hblank, hcomment⟩)]
    simp only [lexeme?_eq_none.2 hforeign]
    exact ⟨_, rfl, rfl⟩

/-- A scan takes the tokens of a cut and goes on behind them. -/
theorem scanFrom_lexes {before text rest : Text} {ts : List Token} (h : Lexes before text ts rest)
    {bound : Nat} (hbound : text.length ≤ bound) :
    ∃ bound' before', rest.length ≤ bound' ∧ before ++ text = before' ++ rest ∧
      scanFrom bound (.behind before) text =
        (scanFrom bound' (.behind before') rest).map (preceded ts) := by
  induction h generalizing bound with
  | @nil before rest =>
    refine ⟨bound, before, hbound, rfl, ?_⟩
    cases scanFrom bound (.behind before) rest <;> rfl
  | @cons before gap content text rest kind ts hgap hlongest _ ih =>
    obtain ⟨b, more, hcontent⟩ := hlongest.spelled.exists_cons
    have hlength : text.length < bound := by
      simp [hcontent] at hbound
      omega
    obtain ⟨bound, rfl⟩ : ∃ k, bound = k + 1 := ⟨bound - 1, by omega⟩
    obtain ⟨bound', before', hbound', hbefore, hscan⟩ := ih (Nat.le_of_lt_succ hlength)
    refine ⟨bound', before', hbound', ?_, ?_⟩
    · rw [← hbefore]
      simp
    · rw [List.append_assoc, scanFrom_spacing hgap, scanFrom_longest hlongest, Place.after_behind,
        Place.after_behind, hscan]
      cases scanFrom bound' (.behind before') rest <;> rfl

theorem scan_of_lexes {source gap : Text} {ts : List Token} (h : Lexes [] source ts gap)
    (hgap : Spacing gap []) : scan source = .ok ⟨ts, .behind source⟩ := by
  obtain ⟨bound, before, hbound, hbefore, hscan⟩ := scanFrom_lexes h (Nat.le_refl _)
  rw [scanFrom_end hgap hbound, Place.after_behind, ← hbefore] at hscan
  have hstart : scan source = _ := hscan
  simpa [Except.map, preceded] using hstart

theorem scan_of_stuck {source gap rest : Text} {ts : List Token}
    (h : Lexes [] source ts (gap ++ rest)) (hgap : Spacing gap rest) (hrest : Stuck rest) :
    ∃ r before, source = before ++ rest ∧ scan source = .error r ∧ r.place = .behind before := by
  obtain ⟨bound, before, hbound, hbefore, hscan⟩ := scanFrom_lexes h (Nat.le_refl _)
  have hlength : 0 < rest.length := by
    cases hrest with
    | unclosed hunclosed =>
      obtain ⟨body, rfl, -⟩ := hunclosed
      simp
    | foreign _ _ _ => simp
  obtain ⟨bound, rfl⟩ : ∃ k, bound = k + 1 := ⟨bound - 1, by simp at hbound; omega⟩
  obtain ⟨r, hr, hplace⟩ := scanFrom_stuck hrest bound (.behind (before ++ gap))
  rw [scanFrom_spacing hgap, Place.after_behind, hr] at hscan
  refine ⟨r, before ++ gap, ?_, hscan, hplace⟩
  rw [List.append_assoc, ← hbefore, List.nil_append]

/-- The tokens of a source are those of its cut. -/
theorem scan_eq_ok_iff {source : Text} {tokens : Tokens} :
    scan source = .ok tokens ↔
      ∃ gap, Lexes [] source tokens.body gap ∧ Spacing gap [] ∧
        tokens.ending = .behind source := by
  constructor
  · intro hscan
    obtain ⟨ts, gap, rest, hlexes, hgap, rfl | hrest⟩ := exists_lexes [] source
    · rw [List.append_nil] at hlexes
      cases hscan.symm.trans (scan_of_lexes hlexes hgap)
      exact ⟨gap, hlexes, hgap, rfl⟩
    · obtain ⟨r, before, -, hr, -⟩ := scan_of_stuck hlexes hgap hrest
      cases hscan.symm.trans hr
  · rintro ⟨gap, hlexes, hgap, hending⟩
    rw [scan_of_lexes hlexes hgap, ← hending]

/-- A refused source is stuck at the place of the refusal. -/
theorem stuck_of_scan {source : Text} {r : Rejection} (h : scan source = .error r) :
    ∃ ts gap before rest, source = before ++ rest ∧ r.place = .behind before ∧
      Lexes [] source ts (gap ++ rest) ∧ Spacing gap rest ∧ Stuck rest := by
  obtain ⟨ts, gap, rest, hlexes, hgap, rfl | hrest⟩ := exists_lexes [] source
  · rw [List.append_nil] at hlexes
    cases h.symm.trans (scan_of_lexes hlexes hgap)
  · obtain ⟨r', before, hsource, hr, hplace⟩ := scan_of_stuck hlexes hgap hrest
    cases h.symm.trans hr
    exact ⟨ts, gap, before, rest, hsource, hplace, hlexes, hgap, hrest⟩

/-! ## The tokens in the source -/

theorem Lexes.of_mem {before text rest : Text} {ts : List Token} (h : Lexes before text ts rest)
    {t : Token} (ht : t ∈ ts) :
    ∃ pre post, before ++ text = pre ++ (t.content ++ post) ∧ t.place = .behind pre ∧
      Longest t.kind t.content post := by
  induction h with
  | nil => cases ht
  | @cons before gap content text rest kind ts _ hlongest _ ih =>
    rcases List.mem_cons.1 ht with rfl | ht
    · exact ⟨before ++ gap, text, by simp, rfl, hlongest⟩
    · obtain ⟨pre, post, heq, hplace, hpost⟩ := ih ht
      refine ⟨pre, post, ?_, hplace, hpost⟩
      rw [← heq]
      simp

/-- A token of a whole source by its place. -/
theorem Lexes.slice {source rest : Text} {ts : List Token} (h : Lexes [] source ts rest)
    {t : Token} (ht : t ∈ ts) :
    t.place = .behind (source.take t.place.pos) ∧
      t.content = (source.drop t.place.pos).take t.content.length ∧
      Longest t.kind t.content (source.drop (t.place.pos + t.content.length)) := by
  obtain ⟨pre, post, heq, hplace, hlongest⟩ := h.of_mem ht
  have hpos : t.place.pos = pre.length := congrArg Place.pos hplace
  rw [List.nil_append] at heq
  rw [heq, hpos, List.take_left, List.drop_left, List.take_left, ← List.drop_drop, List.drop_left,
    List.drop_left]
  exact ⟨hplace, rfl, hlongest⟩

/-- The spacing in front of the first token, or of the end. -/
theorem Lexes.first_gap {before text rest : Text} {ts : List Token}
    (h : Lexes before text ts rest) (hrest : Spacing rest []) :
    ∃ gap post, before ++ text = before ++ gap ++ post ∧ Spacing gap post ∧
      (Tokens.placeAt ⟨ts, .behind (before ++ text)⟩ 0).pos = (before ++ gap).length := by
  cases h with
  | nil => exact ⟨text, [], by simp, hrest, rfl⟩
  | @cons _ gap content text _ kind ts hgap _ _ =>
    exact ⟨gap, content ++ text, by simp, hgap, rfl⟩

/-- The spacing between a token and the next one, or the end. -/
theorem Lexes.next_gap {before text rest : Text} {ts : List Token}
    (h : Lexes before text ts rest) (hrest : Spacing rest []) {k : Nat} {t : Token}
    (ht : ts[k]? = some t) :
    ∃ pre gap post, before ++ text = pre ++ gap ++ post ∧ Spacing gap post ∧
      t.place.pos + t.content.length = pre.length ∧
      (Tokens.placeAt ⟨ts, .behind (before ++ text)⟩ (k + 1)).pos = (pre ++ gap).length := by
  induction h generalizing k with
  | nil => cases ht
  | @cons before gap content text rest kind ts _ _ hothers ih =>
    have heq : before ++ (gap ++ content ++ text) = before ++ gap ++ content ++ text := by simp
    rw [heq]
    cases k with
    | zero =>
      obtain rfl := Option.some.inj ht
      obtain ⟨gap', post, htext, hgap', hpos⟩ := hothers.first_gap hrest
      exact ⟨before ++ gap ++ content, gap', post, htext, hgap', List.length_append.symm, hpos⟩
    | succ k => exact ih hrest ht

end Token

/-- The tokens cover the source: each is the longest one at its place, they stand in order up
to the end, and between them are spacings. -/
structure Tokens.Cover (tokens : Tokens) (source : Text) : Prop where
  ending : tokens.ending = .behind source
  ordered : ∀ k < tokens.body.length, (tokens.placeAt k).pos < (tokens.placeAt (k + 1)).pos
  place : ∀ t ∈ tokens.body, t.place = .behind (source.take t.place.pos)
  content : ∀ t ∈ tokens.body, t.content = (source.drop t.place.pos).take t.content.length
  longest : ∀ t ∈ tokens.body,
    Token.Longest t.kind t.content (source.drop (t.place.pos + t.content.length))
  firstGap : Token.Spacing (source.take (tokens.placeAt 0).pos)
    (source.drop (tokens.placeAt 0).pos)
  nextGap : ∀ k t, tokens.body[k]? = some t →
    Token.Spacing
      ((source.take (tokens.placeAt (k + 1)).pos).drop (t.place.pos + t.content.length))
      (source.drop (tokens.placeAt (k + 1)).pos)

namespace Token

theorem cover_of_lexes {source gap : Text} {tokens : Tokens} (hscan : scan source = .ok tokens)
    (h : Lexes [] source tokens.body gap) (hgap : Spacing gap [])
    (hending : tokens.ending = .behind source) : tokens.Cover source where
  ending := hending
  ordered := (pos_lt_of_scanFrom hscan).2
  place t ht := (h.slice ht).1
  content t ht := (h.slice ht).2.1
  longest t ht := (h.slice ht).2.2
  firstGap := by
    obtain ⟨gap', post, heq, hspacing, hpos⟩ := h.first_gap hgap
    simp only [List.nil_append, ← hending] at heq hpos
    rw [hpos, heq, List.take_left, List.drop_left]
    exact hspacing
  nextGap k t ht := by
    obtain ⟨pre, gap', post, heq, hspacing, hfinish, hpos⟩ := h.next_gap hgap ht
    simp only [List.nil_append, ← hending] at heq hpos
    rw [hpos, hfinish, heq, List.take_left, List.drop_left, List.drop_left]
    exact hspacing

/-- Scanning takes the longest token at every place and loses nothing.  A source is scanned
exactly if it can be cut into such tokens with spacings around them.  It is refused exactly
if it can be cut up to a place where it is stuck, and then it is refused there. -/
theorem scan_longest_tokens (source : Text) :
    (∀ tokens, scan source = .ok tokens → tokens.Cover source) ∧
    (∀ tokens, scan source = .ok tokens ↔
      ∃ gap, Lexes [] source tokens.body gap ∧ Spacing gap [] ∧
        tokens.ending = .behind source) ∧
    (∀ r, scan source = .error r →
      ∃ ts gap before rest, source = before ++ rest ∧ r.place = .behind before ∧
        Lexes [] source ts (gap ++ rest) ∧ Spacing gap rest ∧ Stuck rest) ∧
    ∀ ts gap rest, Lexes [] source ts (gap ++ rest) → Spacing gap rest → Stuck rest →
      ∃ r, scan source = .error r := by
  refine ⟨fun tokens hscan => ?_, fun tokens => scan_eq_ok_iff, fun r => stuck_of_scan,
    fun ts gap rest hlexes hgap hrest => ?_⟩
  · obtain ⟨gap, hlexes, hgap, hending⟩ := scan_eq_ok_iff.1 hscan
    exact cover_of_lexes hscan hlexes hgap hending
  · obtain ⟨r, before, -, hr, -⟩ := scan_of_stuck hlexes hgap hrest
    exact ⟨r, hr⟩

/-- A comment in the middle of a line, a word that only starts like a keyword, and a comment
that the slash which opens it does not close. -/
theorem comment_covered :
    (∃ tokens, scan (utf8 "a1/*/*/\n<=if2 //") = .ok tokens ∧
      tokens.body = [⟨.name, utf8 "a1", ⟨0, 1, 1⟩⟩, ⟨.lessEqual, utf8 "<=", ⟨8, 2, 1⟩⟩,
        ⟨.name, utf8 "if2", ⟨10, 2, 3⟩⟩] ∧
      tokens.Cover (utf8 "a1/*/*/\n<=if2 //")) ∧
    ∃ ts gap before rest, utf8 "x=/*/" = before ++ rest ∧ Place.behind before = ⟨2, 1, 3⟩ ∧
      Lexes [] (utf8 "x=/*/") ts (gap ++ rest) ∧ Spacing gap rest ∧ Stuck rest := by
  have hscan : scan (utf8 "a1/*/*/\n<=if2 //") = .ok ⟨[⟨.name, utf8 "a1", ⟨0, 1, 1⟩⟩,
      ⟨.lessEqual, utf8 "<=", ⟨8, 2, 1⟩⟩, ⟨.name, utf8 "if2", ⟨10, 2, 3⟩⟩], ⟨16, 2, 9⟩⟩ := by
    cbv
  have herror : scan (utf8 "x=/*/") =
      .error ⟨⟨2, 1, 3⟩, utf8 "/*", .unterminatedComment, [.token]⟩ := by
    cbv
  refine ⟨⟨_, hscan, rfl, (scan_longest_tokens _).1 _ hscan⟩, ?_⟩
  obtain ⟨ts, gap, before, rest, hsource, hplace, hcut⟩ :=
    (scan_longest_tokens _).2.2.1 _ herror
  exact ⟨ts, gap, before, rest, hsource, hplace.symm, hcut⟩

end Token
end WordC
