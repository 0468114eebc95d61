import WordC.Yaml.Input
import WordC.Yaml.Token
/-!
The scan of a document.

Tokens are scanned only as far as the reader of them looks ahead, so a document
is not refused for what stands far behind its end.  The scan keeps the tokens
that the reader has not taken, the columns of the open block collections, and per
flow level the last token that may turn out to be a key: the colon that decides
this comes after the key.
-/

namespace WordC
namespace Yaml

/-- A place among the characters. -/
structure Mark where
  index : Nat
  /-- Counted from one. -/
  line : Nat
  /-- Counted from zero. -/
  column : Nat
deriving Repr, DecidableEq

/-- The last token of a level that may become a key, if a colon follows. -/
structure Candidate where
  /-- Whether it still may. -/
  live : Bool
  /-- The number of tokens before it.  Before a level has any candidate this is the
  number of the bracket that opens it. -/
  token : Nat
  mark : Mark
  /-- An entry of a block mapping is due, so the colon has to follow. -/
  required : Bool

/-- A key stands on one line and within 1024 characters of its colon. -/
def Candidate.isStale (c : Candidate) (here : Mark) : Bool :=
  c.mark.line < here.line || c.mark.index + 1024 < here.index

structure Scan where
  /-- More than the number of characters, so no loop over them goes on for longer. -/
  bound : Nat
  input : Input
  mark : Mark
  /-- The tokens that the reader has not taken yet. -/
  queue : List Token
  /-- The number of tokens that the reader has taken. -/
  taken : Nat
  /-- The columns of the open block collections, innermost first. -/
  columns : List Nat
  /-- Whether a key may start here. -/
  keyAllowed : Bool
  /-- The candidate of the innermost flow collection, or of the block collections
  if none is open. -/
  candidate : Candidate
  /-- The candidates of the levels around it. -/
  outer : List Candidate
  /-- The tokens before which the reader waits, by their numbers, and the number of
  levels around the one whose candidate it waits for. -/
  waits : List (Nat × Nat)

namespace Scan

def ofText (t : Text) : Scan :=
  { bound := t.length + 1, input := Input.ofText t, mark := ⟨0, 1, 0⟩, queue := [], taken := 0,
    columns := [], keyAllowed := true, candidate := ⟨false, 0, ⟨0, 1, 0⟩, false⟩, outer := [],
    waits := [] }

def rest (s : Scan) : List Char := s.input.ready

def inFlow (s : Scan) : Bool := !s.outer.isEmpty

/-- The column of the innermost block collection, `-1` outside all of them. -/
def indent (s : Scan) : Int :=
  match s.columns with
  | [] => -1
  | c :: _ => c

/-- The number of the next token. -/
def count (s : Scan) : Nat := s.taken + s.queue.length

def skipMany (n : Nat) (s : Scan) : Scan :=
  { s with
    input := s.input.drop n
    mark := ⟨s.mark.index + n, s.mark.line, s.mark.column + n⟩ }

def skip (s : Scan) : Scan := s.skipMany 1

/-- Steps over a line end.  A carriage return takes the newline after it along. -/
def skipBreak (s : Scan) : Scan :=
  let n := match s.rest with
    | '\r' :: '\n' :: _ => 2
    | _ => 1
  { s with input := s.input.drop n, mark := ⟨s.mark.index + n, s.mark.line + 1, 0⟩ }

/-- The document marker that stands here. -/
def marker? (s : Scan) : Option Token.Kind :=
  if s.mark.column ≠ 0 then none
  else
    match s.rest with
    | '-' :: '-' :: '-' :: rest => if endsWord rest then some .documentStart else none
    | '.' :: '.' :: '.' :: rest => if endsWord rest then some .documentEnd else none
    | _ => none

/-- A byte order mark may start a line.  While one stands first in view, every
line start counts as one. -/
def marksLine (s : Scan) : Bool := s.mark.column = 0 && s.input.front = some '\ufeff'

end Scan

/-- A step of the scan, which may find the document malformed. -/
abbrev Scanner := StateT Scan Option

namespace Scanner

def refuse {α : Type} : Scanner α := fun _ => none

/-- Brings `n` characters into view. -/
def need (n : Nat) : Scanner Unit := fun s => do
  let input ← s.input.need n
  some ((), { s with input })

def rest : Scanner (List Char) := return (← get).rest

def bound : Scanner Nat := return (← get).bound

def blanks : Nat → Scanner Unit
  | 0 => pure ()
  | n + 1 => do
    let s ← get
    match s.rest with
    | [] => pure ()
    | c :: _ =>
      if c = ' ' || (c = '\t' && (s.inFlow || !s.keyAllowed)) then do
        set s.skip
        need 1
        blanks n

/-- Steps on to the character with the given index, and from there to the end of
its line. -/
def throughLine (index : Nat) : Nat → Scanner Unit
  | 0 => pure ()
  | n + 1 => do
    need 1
    let s ← get
    match s.rest with
    | [] => pure ()
    | c :: _ =>
      if !isBreak c then do
        set s.skip
        throughLine index n
      else if s.mark.index < index then do
        need 2
        modify Scan.skipBreak
        throughLine index n

/-- How far away a comment starts, if only characters that `passes` accepts are
before it from the given distance on. -/
def commentAhead (passes : Char → Bool) : Nat → (distance : Nat) → Scanner (Option Nat)
  | 0, _ => pure none
  | n + 1, distance => do
    need (distance + 1)
    match (← rest)[distance]? with
    | none => pure none
    | some c =>
      if passes c then commentAhead passes n (distance + 1)
      else if c = '#' then pure (some distance)
      else pure none

/-- A comment never starts further away than this. -/
def commentReach : Nat := 512

/-- Whether a comment line is looked for behind the character. -/
def isPlainBreak (c : Char) : Bool := c = '\n' || c = '\r'

/-- Steps over the comment at the given index and the comment lines after it.
Comment lines may be indented in any way. -/
def comments : Nat → (index : Nat) → Scanner Unit
  | 0, _ => pure ()
  | n + 1, index => do
    throughLine index (← bound)
    if (← rest).head?.any isPlainBreak then
      match ← commentAhead (fun c => isBlank c || isPlainBreak c) (commentReach - 1) 1 with
      | none => pure ()
      | some distance => comments n ((← get).mark.index + distance)

/-- Steps over a comment on the line of the token before it. -/
def lineComment : Scanner Unit := do
  match ← commentAhead isBlank commentReach 0 with
  | none => pure ()
  | some distance => throughLine ((← get).mark.index + distance) (← bound)

/-- Steps over blanks, comments and line ends.  Where a key may start, a tab is
no blank. -/
def toWord : Nat → Scanner Unit
  | 0 => pure ()
  | n + 1 => do
    need 1
    if (← get).marksLine then modify Scan.skip
    need 1
    blanks (← bound)
    if (← rest).head? = some '#' then comments (← bound) (← get).mark.index
    if (← rest).head?.any isBreak then
      need 2
      modify fun s => { s.skipBreak with keyAllowed := s.keyAllowed || !s.inFlow }
      toWord n

end Scanner
end Yaml
end WordC
