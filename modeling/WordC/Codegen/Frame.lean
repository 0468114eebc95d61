import WordC.Text.Quoted
/-!
The frame of a compiled function.

A local gets the next slot of the frame when it is met first, and keeps it.
Slot `i` lies `8 * (i + 1)` bytes below the frame base.  The table is the list
of the names in slot order, so a name's slot is its index.
-/

namespace WordC

structure Frame where
  /-- The most names the frame takes; without a limit unless positive. -/
  capacity : Word
  /-- The locals in slot order. -/
  names : List Text
deriving Repr, DecidableEq

namespace Frame

def empty (capacity : Word) : Frame := ⟨capacity, []⟩

def isFull (f : Frame) : Bool := 0 < f.capacity && f.capacity.toInt ≤ f.names.length

/-- The slot of a name, which gets the next free one on first sight.  A full
frame has none to give. -/
def lookup? (f : Frame) (name : Text) : Option (Nat × Frame) :=
  match f.names.idxOf? name with
  | some slot => some (slot, f)
  | none =>
    if f.isFull then none else some (f.names.length, { f with names := f.names ++ [name] })

/-- The distance in bytes from the frame base down to a slot. -/
def offset (slot : Nat) : Nat := wordSize * (slot + 1)

/-- The bytes the frame reserves, a multiple of sixteen as far as wrapping
arithmetic allows. -/
def size (f : Frame) : Word :=
  let slots := if 0 < f.capacity then f.capacity else Int64.ofNat f.names.length
  Word.alignUp (slots * 8) 16

end Frame
end WordC
