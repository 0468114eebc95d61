import WordC.Text.Byte
/-!
Characters inside a text.

A text is read as UTF-8 one character at a time.  A byte that starts no
well-formed sequence stands for itself, so a text and its runes determine each
other and nothing is replaced.
-/

namespace WordC

/-- A character of a text, or a byte that belongs to none. -/
inductive Rune where
  | char (c : Char)
  | stray (b : UInt8)
deriving Repr, DecidableEq

namespace Rune

def bytes : Rune → Text
  | char c => String.utf8EncodeChar c
  | stray b => [b]

/-- White space, in every script. -/
def isBlank : Rune → Bool
  | stray _ => false
  | char c =>
    let n := c.toNat
    (9 ≤ n && n ≤ 13) || n = 0x20 || n = 0x85 || n = 0xA0 || n = 0x1680 ||
      (0x2000 ≤ n && n ≤ 0x200A) || n = 0x2028 || n = 0x2029 || n = 0x202F || n = 0x205F ||
      n = 0x3000

end Rune

namespace Text

def ofRunes (rs : List Rune) : Text := rs.flatMap Rune.bytes

def isContinuation (b : UInt8) : Bool := 0x80 ≤ b && b ≤ 0xBF

/-- How many continuation bytes a leading byte asks for. -/
def tailLength? (a : UInt8) : Option Nat :=
  if a < 0x80 then some 0
  else if 0xC2 ≤ a && a ≤ 0xDF then some 1
  else if 0xE0 ≤ a && a ≤ 0xEF then some 2
  else if 0xF0 ≤ a && a ≤ 0xF4 then some 3
  else none

/-- The bits a leading byte contributes to the code point. -/
def leadBits (a : UInt8) : Nat → Nat
  | 0 => a.toNat
  | 1 => a.toNat - 0xC0
  | 2 => a.toNat - 0xE0
  | _ => a.toNat - 0xF0

/-- The least code point that needs so many continuation bytes.  Anything below
it is an overlong form. -/
def leastCode : Nat → Nat
  | 0 => 0
  | 1 => 0x80
  | 2 => 0x800
  | _ => 0x10000

/-- The rune that starts with the byte `a` and goes on in `rest`, with the
number of bytes it takes from `rest`. -/
def leadingRune (a : UInt8) (rest : Text) : Rune × Nat :=
  match tailLength? a with
  | none => (.stray a, 0)
  | some k =>
    let tail := rest.take k
    let code := tail.foldl (fun n b => 64 * n + (b.toNat - 0x80)) (leadBits a k)
    if tail.length = k && tail.all isContinuation && leastCode k ≤ code && code.isValidChar then
      (.char (Char.ofNat code), k)
    else (.stray a, 0)

/-- At most `n` runes from the front of a text. -/
def runesUpTo : Nat → Text → List Rune
  | 0, _ => []
  | _, [] => []
  | n + 1, a :: rest => (leadingRune a rest).1 :: runesUpTo n (rest.drop (leadingRune a rest).2)

/-- The runes of a text.  Each takes at least one byte. -/
def runes (t : Text) : List Rune := runesUpTo t.length t

/-- The text is well-formed UTF-8. -/
def isValid (t : Text) : Bool := (runes t).all fun
  | .char _ => true
  | .stray _ => false

/-- The text without white space at its ends. -/
def trim (t : Text) : Text :=
  ofRunes (((runes t).dropWhile Rune.isBlank).reverse.dropWhile Rune.isBlank).reverse

/-- Splits runes into the maximal runs without white space. -/
def wordsOf : List Rune → List (List Rune)
  | [] => []
  | r :: rest =>
    if r.isBlank then wordsOf rest
    else
      match rest, wordsOf rest with
      | next :: _, word :: words =>
        if next.isBlank then [r] :: word :: words else (r :: word) :: words
      | _, words => [r] :: words

/-- The maximal runs of a text without white space. -/
def words (t : Text) : List Text := (wordsOf (runes t)).map ofRunes

end Text
end WordC
