import WordC.Text
/-!
The byte classes of the source language.

The classes are sets of bytes, never of characters: a letter is one of the 52
ASCII letters.  Blanks alone reach past ASCII, since a byte counts as blank when
the code point of the same number is white space, which adds `0x85` and `0xA0`.
-/

namespace WordC
namespace Byte

@[match_pattern] abbrev tab : UInt8 := 9
@[match_pattern] abbrev newline : UInt8 := 10
@[match_pattern] abbrev carriageReturn : UInt8 := 13
@[match_pattern] abbrev space : UInt8 := 32
@[match_pattern] abbrev bang : UInt8 := 33
@[match_pattern] abbrev quote : UInt8 := 34
@[match_pattern] abbrev hash : UInt8 := 35
@[match_pattern] abbrev apostrophe : UInt8 := 39
@[match_pattern] abbrev leftParen : UInt8 := 40
@[match_pattern] abbrev rightParen : UInt8 := 41
@[match_pattern] abbrev star : UInt8 := 42
@[match_pattern] abbrev plus : UInt8 := 43
@[match_pattern] abbrev comma : UInt8 := 44
@[match_pattern] abbrev minus : UInt8 := 45
@[match_pattern] abbrev dot : UInt8 := 46
@[match_pattern] abbrev slash : UInt8 := 47
@[match_pattern] abbrev zero : UInt8 := 48
@[match_pattern] abbrev colon : UInt8 := 58
@[match_pattern] abbrev semicolon : UInt8 := 59
@[match_pattern] abbrev less : UInt8 := 60
@[match_pattern] abbrev equal : UInt8 := 61
@[match_pattern] abbrev greater : UInt8 := 62
@[match_pattern] abbrev leftBracket : UInt8 := 91
@[match_pattern] abbrev backslash : UInt8 := 92
@[match_pattern] abbrev rightBracket : UInt8 := 93
@[match_pattern] abbrev underscore : UInt8 := 95
@[match_pattern] abbrev leftBrace : UInt8 := 123
@[match_pattern] abbrev rightBrace : UInt8 := 125

def isDigit (b : UInt8) : Bool := 48 ≤ b && b ≤ 57

def isUnderscore (b : UInt8) : Bool := b = underscore

def isLetter (b : UInt8) : Bool := (97 ≤ b && b ≤ 122) || (65 ≤ b && b ≤ 90)

def isNameStart (b : UInt8) : Bool := isLetter b || isUnderscore b

def isNamePart (b : UInt8) : Bool := isLetter b || isUnderscore b || isDigit b

def isBlank (b : UInt8) : Bool := (9 ≤ b && b ≤ 13) || b = 32 || b = 0x85 || b = 0xA0

/-- The bytes a symbol token may start with. -/
def isSymbolStart (b : UInt8) : Bool :=
  [plus, minus, star, slash, leftParen, rightParen, leftBrace, rightBrace, semicolon, equal, bang,
    less, greater].contains b

/-- The lower-case form of an ASCII letter, every other byte unchanged. -/
def toLower (b : UInt8) : UInt8 := if 65 ≤ b && b ≤ 90 then b + 32 else b

end Byte

namespace Text

/-- A symbol name is a name of the source language, keywords included. -/
def isSymbolName : Text → Bool
  | [] => false
  | b :: rest => Byte.isNameStart b && rest.all Byte.isNamePart

/-- An optional minus sign and then digits, at least one. -/
def isSignedNumber (t : Text) : Bool :=
  let digits := match t with
    | Byte.minus :: rest => rest
    | _ => t
  !digits.isEmpty && digits.all Byte.isDigit

end Text
end WordC
