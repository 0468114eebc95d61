import WordC.Text.Number
import WordC.Text.Printable
/-!
Quoted texts.

A quoted text stands between double quotes.  Printable characters stand for
themselves, the usual control characters have one-letter escapes, and everything
else is written by its number: a stray byte or an ASCII control by two
hexadecimal digits, other characters by four or eight.
-/

namespace WordC

/-- The letter of a one-letter escape. -/
def shortEscape? (n : Nat) : Option UInt8 :=
  match n with
  | 7 => some 97
  | 8 => some 98
  | 9 => some 116
  | 10 => some 110
  | 11 => some 118
  | 12 => some 102
  | 13 => some 114
  | 34 => some 34
  | 92 => some 92
  | _ => none

namespace Rune

/-- A rune as it stands between quotes. -/
def escaped (r : Rune) : Text :=
  match r with
  | stray b => utf8 "\\x" ++ Text.hexPadded 2 b.toNat
  | char c =>
    match shortEscape? c.toNat with
    | some letter => [Byte.backslash, letter]
    | none =>
      if r.isPrintable then r.bytes
      else if c.toNat < 0x80 then utf8 "\\x" ++ Text.hexPadded 2 c.toNat
      else if c.toNat < 0x10000 then utf8 "\\u" ++ Text.hexPadded 4 c.toNat
      else utf8 "\\U" ++ Text.hexPadded 8 c.toNat

end Rune

namespace Text

def quoted (t : Text) : Text :=
  Byte.quote :: ((runes t).flatMap Rune.escaped ++ [Byte.quote])

end Text
end WordC
