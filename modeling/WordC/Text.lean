/-!
Texts as lists of bytes.

Programs, assembly files and settings files arrive as bytes that need not be
valid UTF-8, and every position the library reports counts bytes.  A `Text` is
therefore a plain list of bytes: splitting it is recursion on a list, and no
operation has to decide what an invalid sequence means.  Characters are
recovered, where they matter, by `Text.runes` in `WordC.Text.Rune`.
-/

namespace WordC

abbrev Text := List UInt8

/-- The bytes of a string.  Written through `data` so that the kernel evaluates
it on a literal. -/
def utf8 (s : String) : Text := s.toUTF8.data.toList

namespace Text

/-- The texts one after another with `sep` between neighbours. -/
def join (sep : Text) : List Text → Text
  | [] => []
  | [t] => t
  | t :: rest => t ++ sep ++ join sep rest

/-- The pieces between occurrences of the byte `sep`: one more piece than there
are occurrences, so the pieces and `sep` determine the text. -/
def splitOn (sep : UInt8) : Text → List Text
  | [] => [[]]
  | b :: rest =>
    if b = sep then [] :: splitOn sep rest
    else
      match splitOn sep rest with
      | [] => [[b]]
      | piece :: pieces => (b :: piece) :: pieces

theorem splitOn_ne_nil (sep : UInt8) (t : Text) : splitOn sep t ≠ [] := by
  cases t with
  | nil => simp [splitOn]
  | cons b rest =>
    rw [splitOn]
    split
    · simp
    · split <;> simp

/-- Every occurrence of the byte `old` replaced by `new`. -/
def replace (old : UInt8) (new : Text) : Text → Text
  | [] => []
  | b :: rest => if b = old then new ++ replace old new rest else b :: replace old new rest

/-- The text without the bytes equal to `b` at its end. -/
def dropRight (b : UInt8) (t : Text) : Text :=
  (t.reverse.dropWhile (· = b)).reverse

/-- `n` spaces. -/
def spaces (n : Nat) : Text := List.replicate n 32

/-- The byte order on texts, a proper prefix before what extends it. -/
def precedes : Text → Text → Bool
  | [], _ => true
  | _ :: _, [] => false
  | a :: s, b :: t => a < b || (a = b && precedes s t)

end Text
end WordC
