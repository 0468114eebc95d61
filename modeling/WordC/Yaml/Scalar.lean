import WordC.Text.Date
import WordC.Text.Fraction
/-!
What a plain scalar means.

The text of a plain scalar decides its type.  Integers are read after dropping
their underscores, and up to the greatest unsigned word; what is larger, or has a
point or an exponent, is a fraction.
-/

namespace WordC
namespace Yaml

inductive Scalar where
  | null
  | bool (b : Bool)
  | integer (n : Int)
  /-- A fraction, by its whole part. -/
  | fraction (whole : Int)
  | infinite (negative : Bool)
  | notANumber
  | date
  /-- The key whose value is merged into the mapping around it. -/
  | merge
  | text
deriving Repr, DecidableEq

namespace Scalar

def tag : Scalar → Text
  | null => utf8 "!!null"
  | bool _ => utf8 "!!bool"
  | integer _ => utf8 "!!int"
  | fraction _ | infinite _ | notANumber => utf8 "!!float"
  | date => utf8 "!!timestamp"
  | merge => utf8 "!!merge"
  | text => utf8 "!!str"

/-- The scalars that are spelled by a fixed word. -/
def words : List (String × Scalar) :=
  [("", null), ("~", null), ("null", null), ("Null", null), ("NULL", null), ("<<", merge),
    ("true", bool true), ("True", bool true), ("TRUE", bool true),
    ("false", bool false), ("False", bool false), ("FALSE", bool false),
    (".nan", notANumber), (".NaN", notANumber), (".NAN", notANumber),
    (".inf", infinite false), (".Inf", infinite false), (".INF", infinite false),
    ("+.inf", infinite false), ("+.Inf", infinite false), ("+.INF", infinite false),
    ("-.inf", infinite true), ("-.Inf", infinite true), ("-.INF", infinite true)]

/-- The words that only mean a truth value where one is wanted. -/
def truthWords : List (String × Bool) :=
  [("y", true), ("Y", true), ("yes", true), ("Yes", true), ("YES", true), ("on", true),
    ("On", true), ("ON", true), ("n", false), ("N", false), ("no", false), ("No", false),
    ("NO", false), ("off", false), ("Off", false), ("OFF", false)]

def lookup {α : Type} (words : List (String × α)) (t : Text) : Option α :=
  (words.find? fun w => utf8 w.1 = t).map Prod.snd

/-- Reads an unsigned literal up to the greatest unsigned word. -/
def readUnsigned? (t : Text) : Option Nat :=
  if t.isEmpty then none
  else
    let (base, digits) := Text.splitBase t
    (Text.readDigits base 0 digits).toOption

/-- Reads binary or octal digits whose sign stands behind the base. -/
def readBased? (t : Text) : Option Int :=
  let read (base : Nat) (t : Text) : Option Int :=
    let (negative, digits) := Text.splitSign t
    if digits.isEmpty then none
    else do
      let n ← (Text.readDigits base 0 digits).toOption
      let w ← (Text.applySign negative n).toOption
      some w.toInt
  match t with
  | Byte.zero :: 98 :: rest => read 2 rest
  | Byte.zero :: 111 :: rest => read 8 rest
  | _ => none

def readNumber? (t : Text) : Option Scalar :=
  match Text.readInteger t with
  | .ok w => some (integer w.toInt)
  | .error _ =>
    match readUnsigned? t, Text.readFraction? t, readBased? t with
    | some n, _, _ => some (integer n)
    | none, some whole, _ => some (fraction whole)
    | none, none, some n => some (integer n)
    | none, none, none => none

/-- A fraction without digits before the point keeps its underscores, which have
to stand between digits. -/
def readBareFraction? (t : Text) : Option Int :=
  if Text.underscoresInPlace t then
    Text.readFraction? (t.filter fun b => b ≠ Byte.underscore)
  else none

def ofPlain (t : Text) : Scalar :=
  match lookup words t with
  | some s => s
  | none =>
    match t with
    | [] => null
    | b :: _ =>
      if b = Byte.dot then ((readBareFraction? t).map fraction).getD text
      else if Byte.isDigit b || b = Byte.plus || b = Byte.minus then
        if Text.isDate t then date
        else (readNumber? (t.filter fun c => c ≠ Byte.underscore)).getD text
      else text

/-- The meaning of a scalar.  Quotes make every text a text. -/
def ofText (t : Text) (quoted : Bool) : Scalar := if quoted then text else ofPlain t

/-- The word that a number stands for.  A fraction counts by its whole part, and
one below all words as the least of them. -/
def word? : Scalar → Option Word
  | integer n => Word.ofInt? n
  | fraction whole =>
    if whole ≤ -Word.least then some ((Word.ofInt? whole).getD (Int64.ofInt Word.least)) else none
  | infinite true => some (Int64.ofInt Word.least)
  | _ => none

/-- The truth value that a scalar with the given text stands for. -/
def truth? (t : Text) : Scalar → Option Bool
  | bool b => some b
  | text => lookup truthWords t
  | _ => none

end Scalar
end Yaml
end WordC
