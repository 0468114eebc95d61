import WordC.Settings.Merge
/-!
Settings read from a document.

A settings document is a mapping from the names of the settings to their values.
What it leaves out keeps its standard value.  All faults of a document are
reported together, in its order, except that repeated keys hide the others.
Merged mappings come last.

A text that is no document is told apart from the rest by its kind alone.  The message
for it is a stand-in, the same for all such texts: it says neither where nor why the text
is malformed, and no result is about it.
-/

namespace WordC
namespace Settings

/-- Why a text gives no settings. -/
inductive ReadError where
  /-- The text is no document. -/
  | malformed
  | faulty (faults : List Fault)
  /-- The settings that were read are refused. -/
  | refused (settings : Settings) (problem : Problem)
deriving Repr, DecidableEq

namespace ReadError

def message : ReadError → Text
  | malformed => utf8 "yaml: malformed document"
  | faulty faults =>
    utf8 "yaml: unmarshal errors:" ++ faults.flatMap fun f => utf8 "\n  " ++ f.message
  | refused _ problem => problem.message

/-- As far as the settings were read. -/
def settings : ReadError → Settings
  | refused s _ => s
  | _ => empty

end ReadError

open Yaml (Tree Scalar)

/-- The faults of a value that has the wrong type. -/
def mismatch (target : Target) : Tree → List Fault
  | .scalar line text quoted =>
    [.mismatch line (Scalar.ofText text quoted).tag (some text) target]
  | .sequence line _ => [.mismatch line (utf8 "!!seq") none target]
  | .mapping line pairs =>
    match repeatedKeys pairs with
    | [] => [.mismatch line (utf8 "!!map") none target]
    | faults => faults

/-- Reads a value by the meaning of its scalar.  A null gives none. -/
def readAs {α : Type} (target : Target) (read : Text → Scalar → Option α) (tree : Tree) :
    Except (List Fault) (Option α) :=
  match tree with
  | .scalar _ text quoted =>
    match Scalar.ofText text quoted with
    | .null => .ok none
    | s =>
      match read text s with
      | some a => .ok (some a)
      | none => .error (mismatch target tree)
  | _ => .error (mismatch target tree)

/-- A text setting takes the text of every scalar. -/
def readText : Tree → Except (List Fault) (Option Text) := readAs .text fun t _ => some t

def readWord : Tree → Except (List Fault) (Option Word) := readAs .word fun _ s => s.word?

def readFlag : Tree → Except (List Fault) (Option Bool) := readAs .flag fun t s => s.truth? t

/-- Settings with one of them replaced, unless its value is null or faulty. -/
def put {α : Type} (value : Except (List Fault) (Option α)) (set : α → Settings) (s : Settings) :
    Settings × List Fault :=
  match value with
  | .ok none => (s, [])
  | .ok (some a) => (set a, [])
  | .error faults => (s, faults)

def assign (key value : Tree) (s : Settings) : Settings × List Fault :=
  match readText key with
  | .error faults => (s, faults)
  | .ok none => (s, [])
  | .ok (some name) =>
    if name = utf8 "entry_symbol" then put (readText value) (fun t => { s with entrySymbol := t }) s
    else if name = utf8 "frame_slots" then
      put (readWord value) (fun w => { s with frameSlots := w }) s
    else if name = utf8 "label_prefix" then
      put (readText value) (fun t => { s with labelStem := t }) s
    else if name = utf8 "comments" then put (readFlag value) (fun b => { s with comments := b }) s
    else (s, [.unknownKey key.line name])

def assignAll : List Entry → Settings → Settings × List Fault
  | [], s => (s, [])
  | entry :: rest, s =>
    let (s, faults) := match entry with
      | .pair key value => assign key value s
      | .repeated faults => (s, faults)
    let (s, more) := assignAll rest s
    (s, faults ++ more)

/-- The settings of a document, over the standard ones.  None if what it merges
are no mappings. -/
def ofTree? : Tree → Option (Settings × List Fault)
  | .mapping _ pairs =>
    match repeatedKeys pairs with
    | [] => do some (assignAll (← entries? pairs) standard)
    | faults => some (standard, faults)
  | tree =>
    match readAs .settings (fun _ _ => (none : Option Unit)) tree with
    | .ok _ => some (standard, [])
    | .error faults => some (standard, faults)

def checked (s : Settings) : Except ReadError Settings :=
  match s.problem? with
  | some p => .error (.refused s p)
  | none => .ok s

/-- Reads settings.  A text without any document gives the standard ones. -/
def parse (t : Text) : Except ReadError Settings :=
  match Tree.parse? t with
  | none => .error .malformed
  | some none => checked standard
  | some (some tree) =>
    match ofTree? tree with
    | none => .error .malformed
    | some (s, []) => checked s
    | some (_, faults) => .error (.faulty faults)

end Settings
end WordC
