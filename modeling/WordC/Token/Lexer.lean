import WordC.Rejection
/-!
Scanning a source text into tokens.

Between tokens stand gaps: blanks, comments from `//` to the end of the line, and
comments from `/*` to `*/`.  A token is the longest one that starts where a gap
ends.  `//` and `/*` always open a comment, so the symbol `/` never swallows one.
-/

namespace WordC
namespace Token

/-- What the scanner is inside of between two tokens.  A block comment remembers
where it was opened. -/
inductive Gap where
  | blank
  | lineComment
  | blockComment (opened : Place)

/-- Nothing but a token begins here: the place where a gap ends, and the text
from there on. -/
def skipGap : Gap → Place → Text → Except Rejection (Place × Text)
  | .blank, p, [] => .ok (p, [])
  | .blank, p, Byte.slash :: Byte.slash :: rest =>
    skipGap .lineComment (p.after [Byte.slash, Byte.slash]) rest
  | .blank, p, Byte.slash :: Byte.star :: rest =>
    skipGap (.blockComment p) (p.after [Byte.slash, Byte.star]) rest
  | .blank, p, b :: rest =>
    if Byte.isBlank b then skipGap .blank (p.next b) rest else .ok (p, b :: rest)
  | .lineComment, p, [] => .ok (p, [])
  | .lineComment, p, b :: rest =>
    if b = Byte.newline then skipGap .blank (p.next b) rest
    else skipGap .lineComment (p.next b) rest
  | .blockComment opened, _, [] =>
    .error ⟨opened, [Byte.slash, Byte.star], .unterminatedComment, [.token]⟩
  | .blockComment _, p, Byte.star :: Byte.slash :: rest =>
    skipGap .blank (p.after [Byte.star, Byte.slash]) rest
  | .blockComment opened, p, b :: rest => skipGap (.blockComment opened) (p.next b) rest

/-- Keywords are recognised as whole words only. -/
def wordKind (word : Text) : Kind :=
  match [Kind.returnWord, .ifWord, .elseWord, .whileWord, .forWord].find? (·.text = word) with
  | some k => k
  | none => .name

/-- The kinds written with two bytes. -/
def pairKind? (first second : UInt8) : Option Kind :=
  [Kind.equal, .notEqual, .lessEqual, .greaterEqual].find? (·.text = [first, second])

/-- The kinds written with one byte. -/
def singleKind? (b : UInt8) : Option Kind :=
  [Kind.leftParen, .rightParen, .leftBrace, .rightBrace, .semicolon, .plus, .minus, .star, .slash,
    .assign, .less, .greater].find? (·.text = [b])

/-- A symbol of two bytes goes before one of one byte. -/
def symbol? (b : UInt8) : Text → Option (Kind × Text)
  | c :: _ =>
    match pairKind? b c with
    | some k => some (k, [b, c])
    | none => (singleKind? b).map (·, [b])
  | [] => (singleKind? b).map (·, [b])

/-- The kind and content of the token that starts with the byte `b` and goes on
in `rest`. -/
def lexeme? (b : UInt8) (rest : Text) : Option (Kind × Text) :=
  if Byte.isDigit b then some (.number, b :: rest.takeWhile Byte.isDigit)
  else if Byte.isNameStart b then
    let word := b :: rest.takeWhile Byte.isNamePart
    some (wordKind word, word)
  else symbol? b rest

/-- A byte that starts no token is shown as the character of the same number. -/
def unexpected (p : Place) (b : UInt8) : Rejection :=
  ⟨p, (Rune.char (Char.ofNat b.toNat)).bytes, .unexpectedCharacter, [.token]⟩

/-- Scans from a place.  The bound is at least the length of the text, and every
token takes one byte or more, so nothing is left when the bound is used up. -/
def scanFrom : Nat → Place → Text → Except Rejection Tokens
  | 0, p, _ => .ok ⟨[], p⟩
  | bound + 1, p, text =>
    match skipGap .blank p text with
    | .error r => .error r
    | .ok (p, []) => .ok ⟨[], p⟩
    | .ok (p, b :: rest) =>
      match lexeme? b rest with
      | none => .error (unexpected p b)
      | some (kind, content) =>
        match scanFrom bound (p.after content) ((b :: rest).drop content.length) with
        | .error r => .error r
        | .ok tokens => .ok { tokens with body := ⟨kind, content, p⟩ :: tokens.body }

/-- The tokens of a source text. -/
def scan (text : Text) : Except Rejection Tokens := scanFrom text.length .start text

end Token
end WordC
