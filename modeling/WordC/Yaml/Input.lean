import WordC.Text.Rune
/-!
The characters of a settings document.

A document is written in UTF-8, or in UTF-16 if it starts with the byte order
mark of either byte order.  It is taken in blocks, and a block is decoded as a
whole once a character of it comes into view.  So a damaged block spoils a
document only if the reader has to look that far.
-/

namespace WordC
namespace Yaml

/-- A document holds no control character besides tabs and line ends. -/
def isAllowed (c : Char) : Bool :=
  let n := c.toNat
  c = '\t' || c = '\n' || c = '\r' || (0x20 ≤ n && n ≤ 0x7E) || n = 0x85 ||
    (0xA0 ≤ n && n ≤ 0xD7FF) || (0xE000 ≤ n && n ≤ 0xFFFD) || 0x10000 ≤ n

/-- What the front of a text decodes to. -/
inductive Decoded where
  | char (c : Char) (rest : Text)
  /-- The bytes of the first character are not all there. -/
  | short
  | wrong

inductive Encoding where
  | utf8
  | utf16 (bigEndian : Bool)
deriving Repr, DecidableEq

namespace Encoding

/-- How many bytes the character takes that starts with the given one. -/
def width? (b : UInt8) : Option Nat :=
  if b < 0x80 then some 1
  else if b < 0xC0 then none
  else if b < 0xE0 then some 2
  else if b < 0xF0 then some 3
  else if b < 0xF8 then some 4
  else none

def decodeUtf8 : Text → Decoded
  | [] => .short
  | b :: rest =>
    match width? b with
    | none => .wrong
    | some n =>
      if (rest.take (n - 1)).length < n - 1 then .short
      else
        match Text.leadingRune b rest with
        | (.char c, k) => .char c (rest.drop k)
        | (.stray _, _) => .wrong

/-- The unit that two bytes stand for. -/
def unit (bigEndian : Bool) (a b : UInt8) : Nat :=
  if bigEndian then 256 * a.toNat + b.toNat else 256 * b.toNat + a.toNat

/-- The first half of a pair of units that stand for one character. -/
def isHigh (n : Nat) : Bool := 0xD800 ≤ n && n < 0xDC00

def isLow (n : Nat) : Bool := 0xDC00 ≤ n && n < 0xE000

def decodeUtf16 (bigEndian : Bool) : Text → Decoded
  | a :: b :: rest =>
    let high := unit bigEndian a b
    if isLow high then .wrong
    else if isHigh high then
      match rest with
      | c :: d :: rest =>
        let low := unit bigEndian c d
        if isLow low then
          .char (Char.ofNat (0x10000 + 0x400 * (high - 0xD800) + (low - 0xDC00))) rest
        else .wrong
      | _ => .short
    else .char (Char.ofNat high) rest
  | _ => .short

def decode : Encoding → Text → Decoded
  | utf8 => decodeUtf8
  | utf16 bigEndian => decodeUtf16 bigEndian

/-- The encoding that the first bytes announce, and the bytes after the mark. -/
def detect : Text → Encoding × Text
  | 0xFF :: 0xFE :: rest => (utf16 false, rest)
  | 0xFE :: 0xFF :: rest => (utf16 true, rest)
  | 0xEF :: 0xBB :: 0xBF :: rest => (utf8, rest)
  | t => (utf8, t)

/-- Decodes all of a text but an incomplete character at its end, which is
refused if nothing follows. -/
def decodeAll (e : Encoding) (last : Bool) : Nat → Text → Option (List Char × Text)
  | 0, t => some ([], t)
  | n + 1, t =>
    if t.isEmpty then some ([], [])
    else
      match e.decode t with
      | .char c rest => do
        if isAllowed c then
          let (cs, rest) ← decodeAll e last n rest
          some (c :: cs, rest)
        else none
      | .short => if last then none else some ([], t)
      | .wrong => none

end Encoding

/-- A document on its way from bytes to characters. -/
structure Input where
  /-- The characters in view. -/
  ready : List Char
  /-- How many end marks are in view behind them. -/
  ends : Nat
  /-- The first character that was in view when it was last widened. -/
  front : Option Char
  encoding : Encoding
  /-- The bytes of the current block that are not decoded yet. -/
  held : Text
  /-- The bytes behind the current block. -/
  unread : Text
  /-- Nothing is left to take. -/
  finished : Bool

namespace Input

def blockSize : Nat := 512

/-- The end of a text shows at once only if it is too short for a byte order
mark. -/
def ofText (t : Text) : Input :=
  let block := t.take blockSize
  let (encoding, held) := Encoding.detect block
  { ready := [], ends := 0, front := none, encoding, held, unread := t.drop blockSize,
    finished := block.length < 3 }

/-- Takes the next block, or finds that there is none. -/
def advance (i : Input) : Input :=
  if i.unread.isEmpty then { i with finished := true }
  else
    let n := blockSize - i.held.length
    { i with held := i.held ++ i.unread.take n, unread := i.unread.drop n }

/-- Decodes blocks until `n` characters are in view, or the end. -/
def widen (n : Nat) : Nat → Input → Option Input
  | 0, i => some i
  | m + 1, i => do
    let (cs, held) ← i.encoding.decodeAll i.finished i.held.length i.held
    let i := { i with ready := i.ready ++ cs, held }
    if i.finished then some { i with ends := i.ends + 1 }
    else if n ≤ i.ready.length then some i
    else widen n m i.advance

/-- Brings `n` characters into view, or as many as there are.  Fails if that
meets a damaged block. -/
def need (n : Nat) (i : Input) : Option Input :=
  if n ≤ (i.ready.take n).length + i.ends then some i
  else do
    let i := if i.held.isEmpty then i.advance else i
    let i ← widen n (i.unread.length + 2) i
    some { i with front := i.ready.head? }

def skip (i : Input) : Input :=
  match i.ready with
  | [] => { i with ends := i.ends - 1 }
  | _ :: rest => { i with ready := rest }

def drop : Nat → Input → Input
  | 0, i => i
  | n + 1, i => drop n i.skip

end Input
end Yaml
end WordC
