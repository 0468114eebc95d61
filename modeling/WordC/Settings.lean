import WordC.Text.Number
import WordC.Text.Quoted
/-!
Settings of the compiler.

The settings name the compiled function and its branch labels, bound the frame,
and turn comments on.  Empty names stand for the standard ones, and names that
the assembly could not carry are refused.
-/

namespace WordC

structure Settings where
  /-- The exported name of the compiled function. -/
  entrySymbol : Text
  /-- The number of locals a frame may hold.  Zero sizes the frame to the
  program. -/
  frameSlots : Word
  /-- What every branch label starts with. -/
  labelStem : Text
  /-- Whether each top-level statement is announced by a comment. -/
  comments : Bool
deriving Repr, DecidableEq

namespace Settings

def empty : Settings := ⟨[], 0, [], false⟩

def standard : Settings := ⟨utf8 "main", 0, utf8 ".L", false⟩

/-- Empty names replaced by the standard ones. -/
def withDefaults (s : Settings) : Settings :=
  { s with
    entrySymbol := if s.entrySymbol.isEmpty then standard.entrySymbol else s.entrySymbol
    labelStem := if s.labelStem.isEmpty then standard.labelStem else s.labelStem }

/-- Why settings are refused. -/
inductive Problem where
  | negativeFrame (slots : Word)
  | badEntrySymbol (name : Text)
  | badLabelStem (stem : Text)
deriving Repr, DecidableEq

namespace Problem

def message : Problem → Text
  | negativeFrame slots => utf8 "frame_slots must not be negative, got " ++ Text.ofWord slots
  | badEntrySymbol name =>
    utf8 "entry_symbol " ++ name.quoted ++ utf8 " is not a valid symbol name"
  | badLabelStem stem =>
    utf8 "label_prefix " ++ stem.quoted ++ utf8 " is not a valid label prefix"

end Problem

/-- A label stem is a symbol name, with or without one dot in front. -/
def isLabelStem : Text → Bool
  | Byte.dot :: rest => Text.isSymbolName rest
  | stem => Text.isSymbolName stem

/-- The first problem of the settings, in the order frame, entry, labels. -/
def problem? (s : Settings) : Option Problem :=
  if s.frameSlots < 0 then some (.negativeFrame s.frameSlots)
  else if !s.entrySymbol.isSymbolName then some (.badEntrySymbol s.entrySymbol)
  else if !isLabelStem s.labelStem then some (.badLabelStem s.labelStem)
  else none

end Settings
end WordC
