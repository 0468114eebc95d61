import WordC.Action
import WordC.Settings.Document
/-!
Settings from a file.
-/

namespace WordC
namespace Settings

/-- Why a file gives no settings. -/
inductive LoadError where
  | unreadable (path : Text) (f : Files.Fault)
  | unusable (path : Text) (e : ReadError)
deriving Repr, DecidableEq

def LoadError.message : LoadError → Text
  | unreadable path f => utf8 "read config " ++ path ++ utf8 ": " ++ f.message
  | unusable path e => utf8 "config " ++ path ++ utf8 ": " ++ e.message

def load (path : Text) : Action (Except LoadError Settings) := do
  match ← Action.readFile path with
  | .error f => return .error (.unreadable path f)
  | .ok content =>
    match parse content with
    | .error e => return .error (.unusable path e)
    | .ok s => return .ok s

end Settings
end WordC
