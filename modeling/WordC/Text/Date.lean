import WordC.Text.Number
/-!
Dates in text.

A date is a year of four digits, a month and a day.  A time of day may follow,
after a letter `T` with a zone or after spaces without one.
-/

namespace WordC
namespace Text

/-- One or two digits. -/
def readSmall? : Text → Option (Nat × Text)
  | a :: b :: rest =>
    if !Byte.isDigit a then none
    else if Byte.isDigit b then some (decimalValue [a, b], rest)
    else some (decimalValue [a], b :: rest)
  | [a] => if Byte.isDigit a then some (decimalValue [a], []) else none
  | [] => none

/-- What follows a byte that has to stand here. -/
def after? (b : UInt8) : Text → Option Text
  | c :: rest => if c = b then some rest else none
  | [] => none

def isLeapYear (year : Nat) : Bool := year % 4 = 0 && (year % 100 ≠ 0 || year % 400 = 0)

def daysInMonth (year month : Nat) : Nat :=
  if month = 2 then if isLeapYear year then 29 else 28
  else if [4, 6, 9, 11].contains month then 30
  else 31

/-- `Z`, or a sign and two digits each of hours and minutes.  A full day and a
full hour still count. -/
def isZone : Text → Bool
  | [90] => true
  | [sign, a, b, Byte.colon, c, d] =>
    (sign = Byte.plus || sign = Byte.minus) && [a, b, c, d].all Byte.isDigit &&
      decimalValue [a, b] ≤ 24 && decimalValue [c, d] ≤ 60
  | _ => false

/-- What follows hours, minutes, seconds and an optional fraction of a second. -/
def afterTime? (t : Text) : Option Text := do
  let (hour, t) ← readSmall? t
  let (minute, t) ← readSmall? (← after? Byte.colon t)
  let (second, t) ← readSmall? (← after? Byte.colon t)
  if 24 ≤ hour || 60 ≤ minute || 60 ≤ second then none
  else
    match t with
    | mark :: d :: rest =>
      if (mark = Byte.dot || mark = Byte.comma) && Byte.isDigit d then
        some (rest.dropWhile Byte.isDigit)
      else some t
    | _ => some t

def readDate? (t : Text) : Option Unit := do
  let year := t.takeWhile Byte.isDigit
  let (month, rest) ← readSmall? (← after? Byte.minus (t.drop year.length))
  let (day, rest) ← readSmall? (← after? Byte.minus rest)
  let inMonth := 1 ≤ month && month ≤ 12 && 1 ≤ day && day ≤ daysInMonth (decimalValue year) month
  let timeFits ← match rest with
    | [] => some true
    | sep :: time =>
      if sep = Byte.space then do
        some ((← afterTime? (time.dropWhile fun b => b = Byte.space)).isEmpty)
      else if Byte.toLower sep = 116 then do some (isZone (← afterTime? time))
      else some false
  if year.length = 4 && inMonth && timeFits then some () else none

def isDate (t : Text) : Bool := (readDate? t).isSome

end Text
end WordC
