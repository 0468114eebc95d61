import WordC.Text.Number
/-!
The memory of the machine.

The stack is the only memory.  It is a block of bytes at a fixed address, and it
is accessed by whole words at addresses that are multiples of eight, lowest byte
first.
-/

namespace WordC
namespace Machine

/-- Why a program cannot go on. -/
inductive Fault where
  | stepLimit
  | divisionByZero
  | divisionOverflow
  | outsideStack (address : Word)
  | misaligned (address : Word)
  | flagsUnset
  | unreadable (operand : Text)
  | unwritable (operand : Text)
  | notARegister (op : Text)
  | unsupported (op : Text)
deriving Repr, DecidableEq

def Fault.message : Fault → Text
  | stepLimit => utf8 "step limit exceeded"
  | divisionByZero => utf8 "division by zero"
  | divisionOverflow => utf8 "division overflow"
  | outsideStack address =>
    utf8 "memory access outside the stack: " ++ Text.ofAddress address
  | misaligned address => utf8 "misaligned memory access: " ++ Text.ofAddress address
  | flagsUnset => utf8 "flags read before any cmp"
  | unreadable operand => utf8 "operand " ++ operand ++ utf8 " can not be read"
  | unwritable operand => utf8 "operand " ++ operand ++ utf8 " can not be written"
  | notARegister op => op ++ utf8 " needs a register destination"
  | unsupported op => utf8 "unsupported instruction " ++ op

/-- Why the machine itself breaks down: it has no fault for these. -/
inductive Crash where
  | pastEnd (offset : Word) (size : Nat)
  | missingOperand (index count : Nat)
deriving Repr, DecidableEq

def Crash.message : Crash → Text
  | pastEnd offset size =>
    utf8 "runtime error: slice bounds out of range [" ++ Text.ofWord offset ++ utf8 ":" ++
      Text.ofNat size ++ utf8 "]"
  | missingOperand index count =>
    utf8 "runtime error: index out of range [" ++ Text.ofNat index ++ utf8 "] with length " ++
      Text.ofNat count

inductive Trap where
  | fault (f : Fault)
  | crash (c : Crash)
deriving Repr, DecidableEq

structure Stack where
  bytes : ByteArray

namespace Stack

/-- The lowest address of the stack. -/
def base : Word := 0x7fff0000

def size (s : Stack) : Nat := s.bytes.size

def zeros (n : Nat) : Stack := ⟨⟨Array.replicate n 0⟩⟩

/-- The most bytes a stack can ask for. -/
def sizeLimit : Int := 281474976710656

/-- A zeroed stack of the given size, cut to a multiple of sixteen toward zero.
There is none of a negative size or past the limit. -/
def ofSize? (size : Word) : Option Stack :=
  let n := (size / 16 * 16).toInt
  if n < 0 || sizeLimit < n then none else some (zeros n.toNat)

/-- The address just past the stack. -/
def top (s : Stack) : Word := base + Int64.ofNat s.size

/-- Where a word lies in the bytes.  The bound is tested on a sum that wraps, so
an address just below `base - 2 ^ 63` passes the test and breaks the machine. -/
def locate (s : Stack) (address : Word) : Except Trap Nat :=
  let offset := address - base
  if address % 8 ≠ 0 then .error (.fault (.misaligned address))
  else if offset < 0 || Int64.ofNat s.size < offset + 8 then
    .error (.fault (.outsideStack address))
  else if s.size < offset.toInt.toNat then .error (.crash (.pastEnd offset s.size))
  else .ok offset.toInt.toNat

/-- The number made of `n` bytes from index `i` on, lowest first. -/
def readBytes (bytes : ByteArray) : Nat → Nat → UInt64
  | 0, _ => 0
  | n + 1, i => (bytes.get! i).toUInt64 ||| (readBytes bytes n (i + 1) <<< 8)

/-- Stores the `n` low bytes of `v` from index `i` on, lowest first. -/
def writeBytes : Nat → ByteArray → Nat → UInt64 → ByteArray
  | 0, bytes, _, _ => bytes
  | n + 1, bytes, i, v => writeBytes n (bytes.set! i v.toUInt8) (i + 1) (v >>> 8)

def load (s : Stack) (address : Word) : Except Trap Word :=
  match s.locate address with
  | .error t => .error t
  | .ok i => .ok (readBytes s.bytes 8 i).toInt64

def store (s : Stack) (address value : Word) : Except Trap Stack :=
  match s.locate address with
  | .error t => .error t
  | .ok i => .ok ⟨writeBytes 8 s.bytes i value.toUInt64⟩

end Stack
end Machine
end WordC
