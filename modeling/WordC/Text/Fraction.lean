import WordC.Text.Number
/-!
Decimal fractions in text.

A fraction stands for the nearest number with 53 significant bits, ties going to
the even neighbour.  Only its whole part is of use here, and it matters that the
rounding comes first: a fraction may round up to the next whole number.
-/

namespace WordC
namespace Text

/-- A quotient rounded to the nearest whole number, ties to the even one. -/
def roundDiv (num den : Nat) : Nat :=
  let quotient := num / den
  let twice := 2 * (num % den)
  if twice < den || (twice = den && quotient % 2 = 0) then quotient else quotient + 1

/-- A quotient shifted by a power of two and rounded. -/
def roundShifted (num den : Nat) (shift : Int) : Nat :=
  if shift < 0 then roundDiv (num <<< shift.natAbs) den
  else roundDiv num (den <<< shift.natAbs)

/-- The exponent that leaves 53 bits of a positive quotient before the point. -/
def binaryExponent (num den : Nat) : Int :=
  let guess : Int := (Nat.log2 num : Int) - Nat.log2 den - 52
  let below :=
    if guess < 0 then num <<< guess.natAbs < den <<< 52
    else num < den <<< guess.natAbs <<< 52
  if below then guess - 1 else guess

/-- The whole part of the 53-bit number nearest to a quotient, none if it needs
an exponent past the greatest one. -/
def wholeOfNearest? (num den : Nat) : Option Nat :=
  if num = 0 then some 0
  else
    let exponent := binaryExponent num den
    let bits := roundShifted num den exponent
    let whole := if exponent < 0 then bits >>> exponent.natAbs else bits <<< exponent.natAbs
    if whole < 1 <<< 1024 then some whole else none

/-- The exponent part of a fraction. -/
def readExponent? : Text → Option Int
  | [] => some 0
  | mark :: rest =>
    if Byte.toLower mark = 101 then
      let (negative, digits) := splitSign rest
      if digits.isEmpty || !digits.all Byte.isDigit then none
      else some (if negative then -(decimalValue digits) else decimalValue digits)
    else none

/-- Reads an optional sign, digits with or without a point, and an optional
exponent, and gives the whole part of the number they stand for.  Scales that no
53-bit number comes near are settled by the count of digits. -/
def readFraction? (t : Text) : Option Int := do
  let (negative, body) := splitSign t
  let whole := body.takeWhile Byte.isDigit
  let (decimals, rest) := match body.drop whole.length with
    | Byte.dot :: after => (after.takeWhile Byte.isDigit, after.dropWhile Byte.isDigit)
    | after => ([], after)
  if whole.isEmpty && decimals.isEmpty then none
  else
    let digits := decimalValue (whole ++ decimals)
    let scale := (← readExponent? rest) - decimals.length
    let size := (ofNat digits).length + scale
    let magnitude ←
      if digits = 0 || size < -330 then some 0
      else if 310 < size then none
      else if scale < 0 then wholeOfNearest? digits (Nat.pow 10 scale.natAbs)
      else wholeOfNearest? (digits * Nat.pow 10 scale.natAbs) 1
    some (if negative then -magnitude else magnitude)

end Text
end WordC
