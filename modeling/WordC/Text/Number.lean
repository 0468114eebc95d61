import WordC.Text.Byte
import WordC.Word
/-!
Numbers in text.

Numbers are written in decimal, or in lower-case hexadecimal with the sign in
front of the digits.  They are read in two notations.  `readDecimal` takes an
optional sign and decimal digits.  `readInteger` takes the notation of integer
literals: a sign, a base prefix (`0x`, `0o`, `0b`, or a leading `0` for octal)
and underscores between digits or after the prefix.
-/

namespace WordC
namespace Text

/-- The digits of `n` in base `base`, at most 16. -/
def digits (base n : Nat) : Text := (Nat.toDigits base n).map fun c => c.toNat.toUInt8

def ofNat (n : Nat) : Text := digits 10 n

def signed (base : Nat) (n : Int) : Text :=
  if n < 0 then Byte.minus :: digits base n.natAbs else digits base n.natAbs

def ofInt (n : Int) : Text := signed 10 n

def ofWord (w : Word) : Text := ofInt w.toInt

/-- An address: a negative one shows its magnitude. -/
def ofAddress (w : Word) : Text := utf8 "0x" ++ signed 16 w.toInt

/-- The bit pattern of a word. -/
def ofBits (w : Word) : Text := utf8 "0x" ++ digits 16 w.toUInt64.toNat

/-- At least `width` hexadecimal digits. -/
def hexPadded (width n : Nat) : Text :=
  List.replicate (width - (digits 16 n).length) Byte.zero ++ digits 16 n

/-- The value of a run of decimal digits. -/
def decimalValue (t : Text) : Nat := t.foldl (fun n b => 10 * n + (b.toNat - 48)) 0

/-- Why a text is no integer.  A value counts as too large as soon as a prefix
of its digits passes the unsigned words, whatever follows. -/
inductive NumberError where
  | malformed
  | outOfRange
deriving Repr, DecidableEq

/-- The sign in front of a number, true for minus, and what follows it. -/
def splitSign : Text → Bool × Text
  | Byte.plus :: rest => (false, rest)
  | Byte.minus :: rest => (true, rest)
  | t => (false, t)

/-- The base that the start of an unsigned literal chooses, and its digits. -/
def splitBase (t : Text) : Nat × Text :=
  match t with
  | Byte.zero :: mark :: d :: rest =>
    match Byte.toLower mark with
    | 98 => (2, d :: rest)
    | 111 => (8, d :: rest)
    | 120 => (16, d :: rest)
    | _ => (8, mark :: d :: rest)
  | Byte.zero :: rest => (8, rest)
  | _ => (10, t)

/-- The value of a digit in the alphabet that goes on after `9` with the letters. -/
def digitValue? (b : UInt8) : Option Nat :=
  if Byte.isDigit b then some (b.toNat - 48)
  else if Byte.isLetter b then some ((Byte.toLower b).toNat - 87)
  else none

/-- The number of unsigned words. -/
def unsignedLimit : Nat := 18446744073709551616

/-- Reads digits into `n`, stepping over underscores. -/
def readDigits (base : Nat) : Nat → Text → Except NumberError Nat
  | n, [] => .ok n
  | n, b :: rest =>
    if b = Byte.underscore then readDigits base n rest
    else
      match digitValue? b with
      | none => .error .malformed
      | some d =>
        if base ≤ d then .error .malformed
        else if unsignedLimit ≤ base * n + d then .error .outOfRange
        else readDigits base (base * n + d) rest

/-- What stands before a place in a literal: the start, a digit, an underscore,
or anything else. -/
inductive Before where
  | start
  | digit
  | underscore
  | other
deriving DecidableEq

/-- Every underscore follows a digit and precedes one. -/
def underscoresBetween (isDigit : UInt8 → Bool) : Before → Text → Bool
  | seen, [] => seen != .underscore
  | seen, b :: rest =>
    if isDigit b then underscoresBetween isDigit .digit rest
    else if b = Byte.underscore then
      seen = .digit && underscoresBetween isDigit .underscore rest
    else seen != .underscore && underscoresBetween isDigit .other rest

def isHexDigit (b : UInt8) : Bool :=
  Byte.isDigit b || (97 ≤ Byte.toLower b && Byte.toLower b ≤ 102)

/-- The underscores of an unsigned literal are in place.  A base prefix counts
as a digit. -/
def underscoresInPlace : Text → Bool
  | Byte.zero :: mark :: rest =>
    match Byte.toLower mark with
    | 98 => underscoresBetween Byte.isDigit .digit rest
    | 111 => underscoresBetween Byte.isDigit .digit rest
    | 120 => underscoresBetween isHexDigit .digit rest
    | _ => underscoresBetween Byte.isDigit .start (Byte.zero :: mark :: rest)
  | t => underscoresBetween Byte.isDigit .start t

/-- The word with the given sign and magnitude. -/
def applySign (negative : Bool) (n : Nat) : Except NumberError Word :=
  match Word.ofInt? (if negative then -n else n) with
  | some w => .ok w
  | none => .error .outOfRange

/-- Reads an integer literal. -/
def readInteger (t : Text) : Except NumberError Word :=
  let (negative, body) := splitSign t
  if body.isEmpty then .error .malformed
  else
    let (base, digits) := splitBase body
    match readDigits base 0 digits with
    | .error e => .error e
    | .ok n => if underscoresInPlace body then applySign negative n else .error .malformed

/-- Reads an optional sign and decimal digits. -/
def readDecimal (t : Text) : Except NumberError Word :=
  let (negative, body) := splitSign t
  if body.isEmpty || !body.all Byte.isDigit then .error .malformed
  else applySign negative (decimalValue body)

end Text
end WordC
