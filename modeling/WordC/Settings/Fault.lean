import WordC.Settings
/-!
Faults of a settings document.
-/

namespace WordC
namespace Settings

/-- The type a value is wanted as. -/
inductive Target where
  | settings
  | text
  | word
  | flag
deriving Repr, DecidableEq

def Target.name : Target → Text
  | settings => utf8 "internal.Config"
  | text => utf8 "string"
  | word => utf8 "int"
  | flag => utf8 "bool"

/-- What is wrong with a part of a document, and the line of it. -/
inductive Fault where
  /-- The value has another type.  Collections are named by their tag alone. -/
  | mismatch (line : Nat) (tag : Text) (value : Option Text) (target : Target)
  | unknownKey (line : Nat) (key : Text)
  | repeatedKey (line : Nat) (key : Text) (first : Nat)
deriving Repr, DecidableEq

namespace Fault

/-- A value as a message shows it, cut when it is long. -/
def excerpt (value : Text) : Text :=
  if value.length ≤ 10 then value else value.take 7 ++ utf8 "..."

def message : Fault → Text
  | mismatch line tag value target =>
    let shown := match value with
      | some v => utf8 " `" ++ excerpt v ++ utf8 "`"
      | none => []
    utf8 "line " ++ Text.ofNat line ++ utf8 ": cannot unmarshal " ++ tag ++ shown ++
      utf8 " into " ++ target.name
  | unknownKey line key =>
    utf8 "line " ++ Text.ofNat line ++ utf8 ": field " ++ key ++ utf8 " not found in type " ++
      Target.settings.name
  | repeatedKey line key first =>
    utf8 "line " ++ Text.ofNat line ++ utf8 ": mapping key " ++ key.quoted ++
      utf8 " already defined at line " ++ Text.ofNat first

end Fault

end Settings
end WordC
