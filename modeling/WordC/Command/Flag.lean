import WordC.Command
import WordC.Text.Number
import WordC.Text.Quoted
/-!
Flags on the command line.

A flag is an argument that starts with one or two dashes.  Its value follows an
equals sign or is the next argument, and a switch takes one only after an equals
sign.  Flags end at the first argument that is none, or at a double dash.  The
last of several equal flags counts.
-/

namespace WordC

/-- How a flag is read into options of type `σ`, with its value when it is not
given. -/
inductive Flag.Shape (σ : Type) where
  | switch (set : Bool → σ → σ)
  | text (standard : Text) (set : Text → σ → σ)
  | number (standard : Word) (set : Word → σ → σ)

structure Flag (σ : Type) where
  name : Text
  help : Text
  shape : Flag.Shape σ

namespace Flag

inductive Error where
  | malformed (argument : Text)
  | unknown (name : Text)
  | withoutValue (name : Text)
  | badSwitch (name value : Text)
  | badNumber (name value : Text) (e : Text.NumberError)
deriving Repr, DecidableEq

namespace Error

def message : Error → Text
  | malformed argument => utf8 "bad flag syntax: " ++ argument
  | unknown name => utf8 "flag provided but not defined: -" ++ name
  | withoutValue name => utf8 "flag needs an argument: -" ++ name
  | badSwitch name value =>
    utf8 "invalid boolean value " ++ value.quoted ++ utf8 " for -" ++ name ++ utf8 ": parse error"
  | badNumber name value e =>
    let reason := match e with
      | .malformed => utf8 ": parse error"
      | .outOfRange => utf8 ": value out of range"
    utf8 "invalid value " ++ value.quoted ++ utf8 " for flag -" ++ name ++ reason

end Error

/-- Why the flags give no options. -/
inductive Stop where
  | helpWanted
  | wrong (e : Error)
deriving Repr, DecidableEq

def switchValue? (t : Text) : Option Bool :=
  if (["1", "t", "T", "TRUE", "true", "True"].map utf8).contains t then some true
  else if (["0", "f", "F", "FALSE", "false", "False"].map utf8).contains t then some false
  else none

/-- The name of a flag and the value behind its equals sign.  None if the
argument is no flag, and no name if its form is wrong. -/
def split? (argument : Text) : Option (Option (Text × Option Text)) :=
  let named (body : Text) : Option (Text × Option Text) :=
    match body with
    | [] => none
    | first :: rest =>
      if first = Byte.minus || first = Byte.equal then none
      else
        let more := rest.takeWhile fun b => b ≠ Byte.equal
        match rest.drop more.length with
        | [] => some (first :: more, none)
        | _ :: value => some (first :: more, some value)
  match argument with
  | [Byte.minus] => none
  | [Byte.minus, Byte.minus] => none
  | Byte.minus :: Byte.minus :: body => some (named body)
  | Byte.minus :: body => some (named body)
  | _ => none

/-- Reads a value into the options. -/
def put {σ : Type} (flag : Flag σ) (value : Text) (options : σ) : Except Stop σ :=
  match flag.shape with
  | .switch set =>
    match switchValue? value with
    | some b => .ok (set b options)
    | none => .error (.wrong (.badSwitch flag.name value))
  | .text _ set => .ok (set value options)
  | .number _ set =>
    match Text.readInteger value with
    | .ok w => .ok (set w options)
    | .error e => .error (.wrong (.badNumber flag.name value e))

def isSwitch {σ : Type} (flag : Flag σ) : Bool :=
  match flag.shape with
  | .switch _ => true
  | _ => false

def find {σ : Type} (flags : List (Flag σ)) (name : Text) : Except Stop (Flag σ) :=
  match flags.find? fun f => f.name = name with
  | some f => .ok f
  | none =>
    if name = utf8 "help" || name = utf8 "h" then .error .helpWanted
    else .error (.wrong (.unknown name))

/-- Reads the flags in front of the arguments. -/
def readAll {σ : Type} (flags : List (Flag σ)) : List Text → σ → Except Stop σ
  | [], options => .ok options
  | argument :: rest, options =>
    match split? argument with
    | none => .ok options
    | some none => .error (.wrong (.malformed argument))
    | some (some (name, given)) => do
      let flag ← find flags name
      match given with
      | some value => readAll flags rest (← flag.put value options)
      | none =>
        if flag.isSwitch then readAll flags rest (← flag.put (utf8 "true") options)
        else
          match rest with
          | value :: rest => readAll flags rest (← flag.put value options)
          | [] => .error (.wrong (.withoutValue name))

/-- What the help says of a flag.  A flag of one letter without a value has its
help on the same line. -/
def describe {σ : Type} (flag : Flag σ) : Text :=
  let (type, standard) := match flag.shape with
    | .switch _ => ([], [])
    | .text t _ => (utf8 " string", if t.isEmpty then [] else utf8 " (default " ++ t.quoted ++ utf8 ")")
    | .number w _ =>
      (utf8 " int", if w = 0 then [] else utf8 " (default " ++ Text.ofWord w ++ utf8 ")")
  let head := utf8 "  -" ++ flag.name ++ type
  let gap := if head.length ≤ 4 then utf8 "\t" else utf8 "\n    \t"
  Command.line (head ++ gap ++ flag.help ++ standard)

def usage {σ : Type} (tool : Text) (flags : List (Flag σ)) : Text :=
  Command.line (utf8 "Usage of " ++ tool ++ utf8 ":") ++ flags.flatMap describe

/-- The reply of a command whose flags give no options. -/
def Stop.reply {σ : Type} (tool : Text) (flags : List (Flag σ)) : Stop → Reply
  | helpWanted => ⟨0, [], usage tool flags⟩
  | wrong e => ⟨2, [], Command.line e.message ++ usage tool flags⟩

/-- Reads the options of a command, or ends it. -/
def options {σ : Type} (tool : Text) (flags : List (Flag σ)) (standard : σ) (arguments : List Text) :
    Command σ :=
  match readAll flags arguments standard with
  | .ok options => return options
  | .error stop => throw (stop.reply tool flags)

end Flag
end WordC
