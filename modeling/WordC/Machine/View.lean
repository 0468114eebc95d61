import WordC.Machine
import WordC.Table
/-!
The state of the machine as tables: the registers, and the words between the
stack pointer and the top of the stack.
-/

namespace WordC
namespace Machine

open Asm

def registerTable (s : State) : Table where
  title := utf8 "Registers after " ++ Text.ofNat s.steps ++ utf8 " steps"
  columns := [⟨utf8 "REGISTER", false⟩, ⟨utf8 "VALUE", true⟩, ⟨utf8 "HEX", false⟩]
  rows := Register.wide.map fun r =>
    [r.text, Text.ofWord (s.registers.get r), Text.ofBits (s.registers.get r)]

/-- The names of the registers that point at an address. -/
def pointers (s : State) (address : Word) : Text :=
  Text.join (utf8 ",")
    (([Register.rbp, .rsp].filter fun r => s.registers.get r = address).map Register.text)

/-- At most `count` words from an address up, as long as they can be loaded. -/
def wordsFrom (s : State) : Nat → Word → List (Word × Word)
  | 0, _ => []
  | count + 1, address =>
    if Stack.base ≤ address && address + 8 ≤ s.stack.top then
      match s.stack.load address with
      | .ok value => (address, value) :: wordsFrom s count (address + 8)
      | .error _ => []
    else []

def stackTable (s : State) : Table where
  title := utf8 "Stack"
  columns := [⟨utf8 "ADDRESS", false⟩, ⟨utf8 "VALUE", true⟩, ⟨utf8 "LABELS", false⟩]
  rows := (wordsFrom s (s.stack.size / wordSize) s.registers.rsp).map fun (address, value) =>
    [Text.ofAddress address, Text.ofWord value, pointers s address]

/-- Both tables. -/
def view (s : State) : Text := (registerTable s).render ++ [Byte.newline] ++ (stackTable s).render

end Machine
end WordC
