import WordC.Yaml.Scan.Word
/-!
From characters to tokens.

Each call of `fetch` adds a token to the queue, and in front of it those that its
column calls for.  A colon puts a key token, and the start of its mapping if the
key opens one, in front of the candidate before it.  The reader sees the first
token of the queue once two more are there, and once it is settled whether the
token is a key.
-/

namespace WordC
namespace Yaml

/-- The characters no plain scalar starts with, unless a dash, a question mark or
a colon is followed by more of the word. -/
def indicators : List Char :=
  ['-', '?', ':', ',', '[', ']', '\x7b', '\x7d', '#', '&', '*', '!', '|', '>', '\x27', '\x22', '%',
    '@', '\x60']

/-- A plain scalar may start with the character, given what follows it. -/
def startsPlain (inFlow : Bool) (c : Char) (after : List Char) : Bool :=
  !indicators.contains c && !isBlank c && !isBreak c ||
    c = '-' && !(after.head?.any isBlank) ||
    !inFlow && (c = '?' || c = ':') && !endsWord after

namespace Scan

def emit (kind : Token.Kind) (s : Scan) : Scan :=
  { s with queue := s.queue ++ [⟨kind, s.mark.line⟩] }

/-- Puts a token in front of the one with the given number.  If that one is
taken already, the token goes to the end. -/
def insert (t : Token) (number : Nat) (s : Scan) : Scan :=
  if number < s.taken then { s with queue := s.queue ++ [t] }
  else { s with queue := s.queue.insertIdx (number - s.taken) t }

/-- Ends the block collections that are indented further than a column. -/
def closeBlocks (column : Int) (s : Scan) : Scan :=
  if s.inFlow then s
  else
    let closed := s.columns.takeWhile fun c => column < Int.ofNat c
    { s with
      columns := s.columns.drop closed.length
      queue := s.queue ++ closed.map fun _ => Token.mk .blockEnd s.mark.line }

/-- Collections are nested no deeper. -/
def maxDepth : Nat := 10000

/-- Starts a block collection at a mark that is indented further than the ones
that are open. -/
def openBlock (kind : Token.Kind) (mark : Mark) (number : Nat) (s : Scan) : Option Scan :=
  if !s.inFlow && s.indent < mark.column then
    if maxDepth ≤ s.columns.length then none
    else some { s.insert ⟨kind, mark.line⟩ number with columns := mark.column :: s.columns }
  else some s

/-- The reader does not wait before a token any more. -/
def release (token : Nat) (s : Scan) : Scan :=
  { s with waits := s.waits.filter fun w => w.1 ≠ token }

def dropCandidate (s : Scan) : Option Scan :=
  let c := s.candidate
  if !c.live then some s
  else if c.required then none
  else some { s.release c.token with candidate := { c with live := false } }

def saveCandidate (s : Scan) : Option Scan :=
  if s.keyAllowed then do
    let s ← s.dropCandidate
    some { s with
      candidate := ⟨true, s.count, s.mark, !s.inFlow && s.indent = s.mark.column⟩
      waits := (s.count, s.outer.length) :: s.waits }
  else some s

/-- Whether a colon at this place makes the candidate a key.  Fails if it is too
late for a key that is due. -/
def keyHere? (s : Scan) : Option Bool :=
  let c := s.candidate
  if !c.live then some false
  else if c.isStale s.mark then if c.required then none else some false
  else some true

/-- The candidate that the reader waits for before it takes the first token, and
the number of levels around it. -/
def awaited? (s : Scan) : Option (Candidate × Nat) := do
  let (_, depth) ← s.waits.find? fun w => w.1 = s.taken
  let c ← (s.candidate :: s.outer)[s.outer.length - depth]?
  if c.live && depth ≤ s.outer.length then some (c, depth) else none

/-- Gives up the candidate with so many levels around it. -/
def giveUp (depth : Nat) (s : Scan) : Scan :=
  if depth = s.outer.length then { s with candidate := { s.candidate with live := false } }
  else
    { s with outer := s.outer.modify (s.outer.length - 1 - depth) fun c => { c with live := false } }

def openFlow (kind : Token.Kind) (s : Scan) : Option Scan := do
  let s ← s.saveCandidate
  if maxDepth ≤ s.outer.length then none
  else
    some { (s.emit kind).skip with
      keyAllowed := true
      outer := s.candidate :: s.outer
      candidate := ⟨false, s.count, s.mark, false⟩ }

/-- Closes a flow collection.  If it held no candidate, the reader does not wait
for its opening bracket any more, which may still become a key. -/
def closeFlow (kind : Token.Kind) (s : Scan) : Option Scan := do
  let s ← s.dropCandidate
  let s := match s.outer with
    | [] => s
    | c :: outer => { s.release s.candidate.token with candidate := c, outer := outer }
  some { (s.emit kind).skip with keyAllowed := false }

def comma (s : Scan) : Option Scan := do
  let s ← s.dropCandidate
  some { (s.emit .comma).skip with keyAllowed := true }

def entry (s : Scan) : Option Scan := do
  if !s.inFlow && !s.keyAllowed then none
  else
    let s ← (← s.openBlock .blockSequence s.mark s.count).dropCandidate
    some { (s.emit .entry).skip with keyAllowed := true }

def explicitKey (s : Scan) : Option Scan := do
  if !s.inFlow && !s.keyAllowed then none
  else
    let s ← (← s.openBlock .blockMapping s.mark s.count).dropCandidate
    some { (s.emit .key).skip with keyAllowed := !s.inFlow }

def colon (s : Scan) : Option Scan := do
  let c := s.candidate
  let settled := { c with live := false }
  if ← s.keyHere? then
    let s ← (s.insert ⟨.key, c.mark.line⟩ c.token).openBlock .blockMapping c.mark c.token
    some { ((s.emit .value).skip.release c.token) with candidate := settled, keyAllowed := false }
  else if !s.inFlow && !s.keyAllowed then none
  else
    let s ← s.openBlock .blockMapping s.mark s.count
    some { (s.emit .value).skip with candidate := settled, keyAllowed := !s.inFlow }

/-- The end of the text counts as the start of a line. -/
def finish (s : Scan) : Option Scan := do
  let line := if s.mark.column = 0 then s.mark.line else s.mark.line + 1
  let s := { s with mark := ⟨s.mark.index, line, 0⟩ }
  let s ← (s.closeBlocks (-1)).dropCandidate
  some { s.emit .finish with keyAllowed := false }

def document (kind : Token.Kind) (s : Scan) : Option Scan := do
  let s ← (s.closeBlocks (-1)).dropCandidate
  some { (s.emit kind).skipMany 3 with keyAllowed := false }

end Scan

namespace Scanner

def step (f : Scan → Option Scan) : Scanner Unit := fun s => do some ((), ← f s)

def textOf (cs : List Char) : Text := cs.flatMap String.utf8EncodeChar

/-- Adds the scalar whose characters are given last to first. -/
def scalar (cs : List Char) (quoted : Bool) (line : Nat) : Scanner Unit :=
  modify fun s => { s with queue := s.queue ++ [⟨.scalar (textOf cs.reverse) quoted, line⟩] }

/-- Also says whether the scalar ends on its last line. -/
def plainScalar : Scanner Bool := do
  step Scan.saveCandidate
  let s ← get
  let (cs, broken) ← plain (s.indent + 1) (← bound) [] {}
  modify fun s => { s with keyAllowed := broken }
  scalar cs false s.mark.line
  pure !broken

def quotedScalar (double : Bool) : Scanner Unit := do
  step Scan.saveCandidate
  let s ← get
  set { s.skip with keyAllowed := false }
  let cs ← quoted double (← bound) []
  scalar cs true s.mark.line

/-- Scans the token that starts with a character, and says whether a comment may
follow it on its line.  A comment after a dash belongs to what comes next. -/
def token (c : Char) (after : List Char) : Scanner Bool := do
  let inFlow := (← get).inFlow
  match c with
  | '[' => step (Scan.openFlow .flowSequence); pure true
  | '\x7b' => step (Scan.openFlow .flowMapping); pure true
  | ']' => step (Scan.closeFlow .flowSequenceEnd); pure true
  | '\x7d' => step (Scan.closeFlow .flowMappingEnd); pure true
  | ',' => step Scan.comma; pure true
  | '\x27' => quotedScalar false; pure true
  | '\x22' => quotedScalar true; pure true
  | _ =>
    if c = '-' && endsWord after then do step Scan.entry; pure false
    else if c = '?' && (inFlow || endsWord after) then do step Scan.explicitKey; pure true
    else if c = ':' && (inFlow || endsWord after) then do step Scan.colon; pure true
    else if startsPlain inFlow c after then plainScalar
    else refuse

/-- Scans one token, and the block tokens that its column calls for. -/
def fetch : Scanner Unit := do
  need 1
  if (← get).count = 0 then modify (Scan.emit .start)
  else do
    toWord (← bound)
    modify fun s => s.closeBlocks s.mark.column
    need 4
    let s ← get
    match s.rest, s.marker? with
    | [], _ => step Scan.finish
    | _, some kind => step (Scan.document kind)
    | c :: after, none => do if ← token c after then lineComment

/-- Scans until the reader may take the first token. -/
def fill : Nat → Scanner Unit
  | 0 => refuse
  | n + 1 => do
    let s ← get
    if s.queue.length < 3 then do
      fetch
      fill n
    else
      match s.awaited? with
      | none => pure ()
      | some (c, depth) =>
        if !c.isStale s.mark then do
          fetch
          fill n
        else if c.required then refuse
        else set (s.giveUp depth)

/-- The first token of the queue. -/
def peek : Scanner Token := do
  fill ((← bound) + 3)
  match (← get).queue with
  | [] => refuse
  | t :: _ => pure t

/-- Takes the first token of the queue. -/
def take : Scanner Unit :=
  modify fun s => { s.release s.taken with queue := s.queue.tail, taken := s.taken + 1 }

end Scanner
end Yaml
end WordC
