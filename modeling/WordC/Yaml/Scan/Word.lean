import WordC.Yaml.Scan
/-!
The text of scalars.

A plain scalar is a run of words, a quoted one everything up to the closing
quote.  In both a line end between words becomes a space, and of several line
ends all but the first are kept.
-/

namespace WordC
namespace Yaml

/-- The blanks and line ends between two words of a scalar.  The first line end
becomes a space, or vanishes when others follow it. -/
structure Gap where
  spaces : List Char := []
  firstBreak : Option (List Char) := none
  breaks : List Char := []

namespace Gap

def text (g : Gap) : List Char :=
  match g.firstBreak with
  | none => g.spaces
  | some ['\n'] => if g.breaks.isEmpty then [' '] else g.breaks
  | some b => b ++ g.breaks

def space (g : Gap) (c : Char) : Gap :=
  if g.firstBreak.isNone then { g with spaces := g.spaces ++ [c] } else g

def lineEnd (g : Gap) (b : List Char) : Gap :=
  match g.firstBreak with
  | none => { g with spaces := [], firstBreak := some b }
  | some _ => { g with breaks := g.breaks ++ b }

end Gap

/-- What a line end contributes to a scalar. -/
def breakText : List Char → List Char
  | '\u2028' :: _ => ['\u2028']
  | '\u2029' :: _ => ['\u2029']
  | _ => ['\n']

/-- The character that a one-letter escape stands for. -/
def shortEscape? : Char → Option Char
  | '0' => some '\x00'
  | 'a' => some '\x07'
  | 'b' => some '\x08'
  | 't' => some '\t'
  | '\t' => some '\t'
  | 'n' => some '\n'
  | 'v' => some '\x0b'
  | 'f' => some '\x0c'
  | 'r' => some '\r'
  | 'e' => some '\x1b'
  | ' ' => some ' '
  | '\x22' => some '\x22'
  | '\x27' => some '\x27'
  | '\x5c' => some '\x5c'
  | 'N' => some '\u0085'
  | '_' => some '\u00a0'
  | 'L' => some '\u2028'
  | 'P' => some '\u2029'
  | _ => none

/-- How many hexadecimal digits an escape takes. -/
def escapeDigits? : Char → Option Nat
  | 'x' => some 2
  | 'u' => some 4
  | 'U' => some 8
  | _ => none

def hexDigit? (c : Char) : Option Nat :=
  if '0' ≤ c && c ≤ '9' then some (c.toNat - 48)
  else if 'a' ≤ c && c ≤ 'f' then some (c.toNat - 87)
  else if 'A' ≤ c && c ≤ 'F' then some (c.toNat - 55)
  else none

/-- The character whose code point is written by the digits. -/
def hexCharacter? (digits : List Char) : Option Char := do
  let values ← digits.mapM hexDigit?
  let code := values.foldl (fun n d => 16 * n + d) 0
  if code.isValidChar then some (Char.ofNat code) else none

/-- The characters that end a plain scalar inside a flow collection. -/
def flowIndicators : List Char := [',', '?', '[', ']', '\x7b', '\x7d']

namespace Scanner

/-- Takes in the blanks and line ends that stand here.  At the start of a line a
tab left of the column `floor` is refused. -/
def gap (floor : Int) : Nat → Gap → Scanner Gap
  | 0, g => pure g
  | n + 1, g => do
    let s ← get
    match s.rest with
    | [] => pure g
    | c :: _ =>
      if isBlank c then
        if c = '\t' && g.firstBreak.isSome && s.mark.column < floor then refuse
        else do
          set s.skip
          need 1
          gap floor n (g.space c)
      else if isBreak c then do
        need 2
        modify Scan.skipBreak
        need 1
        gap floor n (g.lineEnd (breakText [c]))
      else pure g

/-- A word of a plain scalar, added to a reversed list. -/
def plainWord : Nat → List Char → Scanner (List Char)
  | 0, word => pure word
  | n + 1, word => do
    let s ← get
    match s.rest with
    | [] => pure word
    | c :: after =>
      if isBlank c || isBreak c || (c = ':' && endsWord after) ||
          (s.inFlow && flowIndicators.contains c) then pure word
      else do
        set s.skip
        need 2
        plainWord n (c :: word)

/-- The words of a plain scalar, which goes on over lines that are indented
further than the block around it, added to a reversed list.  Also whether a line
end follows it. -/
def plain (floor : Int) : Nat → List Char → Gap → Scanner (List Char × Bool)
  | 0, out, g => pure (out, g.firstBreak.isSome)
  | n + 1, out, g => do
    need 4
    let s ← get
    if s.marker?.isSome || s.rest.head? = some '#' then pure (out, g.firstBreak.isSome)
    else do
      let word ← plainWord (← bound) []
      let (out, g) := if word.isEmpty then (out, g) else (word ++ g.text.reverse ++ out, {})
      let rest ← rest
      if rest.isEmpty || !endsWord rest then pure (out, g.firstBreak.isSome)
      else do
        need 1
        let g ← gap floor (← bound) g
        let s ← get
        if !s.inFlow && s.mark.column < floor then pure (out, g.firstBreak.isSome)
        else plain floor n out g

/-- The character that the digits of an escape stand for. -/
def escaped (digits : Nat) : Scanner Char := do
  need digits
  let written := (← rest).take digits
  match hexCharacter? written with
  | some c =>
    if written.length < digits then refuse
    else do
      modify (Scan.skipMany digits)
      pure c
  | none => refuse

/-- Part of a scalar in single quotes up to a blank or a quote, added to a
reversed list.  A quote that is written twice stands for one. -/
def singleRun : Nat → List Char → Scanner (List Char)
  | 0, out => pure out
  | n + 1, out => do
    let s ← get
    match s.rest with
    | [] => pure out
    | '\x27' :: '\x27' :: _ => do
      set (s.skipMany 2)
      need 2
      singleRun n ('\x27' :: out)
    | c :: after =>
      if c = '\x27' || endsWord (c :: after) then pure out
      else do
        set s.skip
        need 2
        singleRun n (c :: out)

/-- Part of a scalar in double quotes up to a blank or a quote, added to a
reversed list, and whether an escaped line end closes it.  Such a line end joins
two lines without a space. -/
def doubleRun : Nat → List Char → Scanner (List Char × Bool)
  | 0, out => pure (out, false)
  | n + 1, out => do
    let s ← get
    match s.rest with
    | [] => pure (out, false)
    | '\x5c' :: [] => refuse
    | '\x5c' :: c :: _ =>
      if isBreak c then do
        need 3
        modify fun s => s.skip.skipBreak
        pure (out, true)
      else do
        set (s.skipMany 2)
        let c ← match escapeDigits? c, shortEscape? c with
          | some digits, _ => escaped digits
          | none, some c => pure c
          | none, none => refuse
        need 2
        doubleRun n (c :: out)
    | c :: after =>
      if c = '\x22' || endsWord (c :: after) then pure (out, false)
      else do
        set s.skip
        need 2
        doubleRun n (c :: out)

/-- The rest of a quoted scalar, added to a reversed list. -/
def quoted (double : Bool) : Nat → List Char → Scanner (List Char)
  | 0, _ => refuse
  | n + 1, out => do
    need 4
    let s ← get
    if s.marker?.isSome || s.rest.isEmpty then refuse
    else do
      let (run, joined) ←
        if double then doubleRun (← bound) []
        else do pure (← singleRun (← bound) [], false)
      let out := run ++ out
      need 1
      if (← rest).head? = some (if double then '\x22' else '\x27') then do
        modify Scan.skip
        pure out
      else do
        let g ← gap 0 (← bound) (if joined then { firstBreak := some [] } else {})
        quoted double n (g.text.reverse ++ out)

end Scanner
end Yaml
end WordC
