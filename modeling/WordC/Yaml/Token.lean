import WordC.Text
/-!
Tokens of a settings document.

Settings are written in YAML, of which this library reads block and flow
collections and plain and quoted scalars.  Block collections are shown by
indentation alone, so their ends are tokens that stand for no characters, and a
mapping is only recognised at the colon after its first key.
-/

namespace WordC
namespace Yaml

inductive Token.Kind where
  /-- Stands in front of everything else. -/
  | start
  /-- `---` at the start of a line. -/
  | documentStart
  /-- `...` at the start of a line. -/
  | documentEnd
  | blockSequence
  | blockMapping
  /-- The indentation of the innermost block collection ends. -/
  | blockEnd
  | flowSequence
  | flowSequenceEnd
  | flowMapping
  | flowMappingEnd
  /-- A dash, which starts an entry of a block sequence. -/
  | entry
  /-- A comma between entries of a flow collection. -/
  | comma
  | key
  | value
  | scalar (text : Text) (quoted : Bool)
  /-- Nothing follows. -/
  | finish
deriving Repr, DecidableEq

structure Token where
  kind : Token.Kind
  /-- The line the token starts on, counted from one. -/
  line : Nat
deriving Repr, DecidableEq

/-- The characters that end a line. -/
def isBreak (c : Char) : Bool :=
  c = '\n' || c = '\r' || c = '\u0085' || c = '\u2028' || c = '\u2029'

def isBlank (c : Char) : Bool := c = ' ' || c = '\t'

/-- No word goes on here. -/
def endsWord : List Char → Bool
  | [] => true
  | c :: _ => isBlank c || isBreak c

end Yaml
end WordC
