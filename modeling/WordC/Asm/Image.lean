import WordC.Asm
/-!
What a machine runs: instructions in order, and where the labels point.
-/

namespace WordC
namespace Asm

/-- An instruction and the line it was read from. -/
structure Placed where
  line : Int
  instruction : Instruction
deriving Repr, DecidableEq

structure Image where
  instructions : Array Placed
  /-- The labels in the order they were defined, each with the index of the
  instruction that follows it. -/
  labels : List (Text × Int)
  /-- The exported symbols. -/
  globals : List Text
deriving Repr, DecidableEq

namespace Image

def empty : Image := ⟨#[], [], []⟩

def index? (image : Image) (label : Text) : Option Int := image.labels.lookup label

/-- The instruction at an index, which may point anywhere. -/
def fetch? (image : Image) (pc : Int) : Option Placed :=
  if pc < 0 then none else image.instructions[pc.toNat]?

/-- The labels in the byte order of their names. -/
def sortedLabels (image : Image) : List (Text × Int) :=
  image.labels.mergeSort fun a b => a.1.precedes b.1

end Image
end Asm
end WordC
