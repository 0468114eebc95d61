import WordC.Text.Number
/-!
Branch labels.

Every `if`, `while` and `for` takes one number, and its labels are built from the
stem, the role and the number.  A construct may leave some of them unused.
-/

namespace WordC

structure Branch where
  start : Text
  otherwise : Text
  finish : Text
deriving Repr, DecidableEq

namespace Branch

def numbered (stem : Text) (n : Nat) : Branch where
  start := stem ++ utf8 "begin" ++ Text.ofNat n
  otherwise := stem ++ utf8 "else" ++ Text.ofNat n
  finish := stem ++ utf8 "end" ++ Text.ofNat n

end Branch
end WordC
