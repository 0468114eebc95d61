import WordC.Command
import WordC.Text.Quoted
/-!
Log lines: a level, a message and named values.  A value that a reader could not
tell from its surroundings is quoted.
-/

namespace WordC
namespace Log

inductive Level where
  | debug
  /-- Below debugging: single names and labels. -/
  | trace
deriving Repr, DecidableEq

def Level.text : Level → Text
  | debug => utf8 "DEBUG"
  | trace => utf8 "DEBUG-4"

def Rune.isPlain (r : Rune) : Bool :=
  match r with
  | .stray _ => false
  | .char c =>
    if c.toNat < 0x80 then !(c.toNat ≤ 0x20 || c = '=' || c = '\x22')
    else c.toNat ≠ 0xFFFD && !r.isBlank && r.isPrintable

def value (t : Text) : Text :=
  if t.isEmpty || !(Text.runes t).all Rune.isPlain then t.quoted else t

def line (level : Level) (message : Text) (values : List (Text × Text)) : Text :=
  let pairs := (utf8 "level", level.text) :: (utf8 "msg", message) :: values
  Command.line (Text.join [Byte.space] (pairs.map fun (name, t) => name ++ utf8 "=" ++ value t))

end Log
end WordC
