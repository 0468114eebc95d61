import WordC.Text
/-!
Machine words.

Every value of the language is a signed 64-bit word with wrapping arithmetic,
and the same type holds the literals of a program, the registers of the machine
and its addresses.  Division truncates toward zero.
-/

namespace WordC

abbrev Word := Int64

/-- The bytes of one word, and of one slot of a frame. -/
def wordSize : Nat := 8

namespace Word

/-- The words are the integers from `least` to `greatest`. -/
def least : Int := -9223372036854775808

def greatest : Int := 9223372036854775807

/-- The word of an integer that fits. -/
def ofInt? (n : Int) : Option Word :=
  if least ≤ n ∧ n ≤ greatest then some (Int64.ofInt n) else none

/-- `n` rounded up to a multiple of `unit`, as far as wrapping arithmetic
allows. -/
def alignUp (n unit : Word) : Word := (n + unit - 1) / unit * unit

/-- There is no multiple of zero to round to. -/
def alignUp? (n unit : Word) : Option Word := if unit = 0 then none else some (alignUp n unit)

end Word
end WordC
