import WordC.Text.Byte
/-!
Files of a working directory.

A path is walked component by component from the working directory, which is all
that paths can reach.  Directories exist by holding files.
-/

namespace WordC

/-- What a file was accessed for. -/
inductive Files.Access where
  | opening
  | reading
deriving Repr, DecidableEq

inductive Files.Reason where
  | missing
  | notDirectory
  | isDirectory
  | other (text : Text)
deriving Repr, DecidableEq

/-- Why a file could not be accessed. -/
structure Files.Fault where
  access : Files.Access
  path : Text
  reason : Files.Reason
deriving Repr, DecidableEq

/-- File contents by the components of their paths. -/
structure Files where
  entries : List (List Text × Text)
deriving Repr, DecidableEq

namespace Files

def Access.text : Access → Text
  | opening => utf8 "open"
  | reading => utf8 "read"

def Reason.text : Reason → Text
  | missing => utf8 "no such file or directory"
  | notDirectory => utf8 "not a directory"
  | isDirectory => utf8 "is a directory"
  | other text => text

def Fault.message (f : Fault) : Text :=
  f.access.text ++ utf8 " " ++ f.path ++ utf8 ": " ++ f.reason.text

/-- Whether a component stays in the directory it is looked up in. -/
def isHere (component : Text) : Bool := component.isEmpty || component = utf8 "."

def ofList (named : List (Text × Text)) : Files :=
  ⟨named.map fun (name, content) =>
    ((Text.splitOn Byte.slash name).filter fun c => !isHere c, content)⟩

def content? (fs : Files) (parts : List Text) : Option Text :=
  (fs.entries.find? fun e => e.1 = parts).map Prod.snd

def isDirectory (fs : Files) (parts : List Text) : Bool :=
  parts.isEmpty || fs.entries.any fun e => parts.isPrefixOf e.1 && e.1 ≠ parts

/-- Where a path leads. -/
inductive Spot where
  | file (parts : List Text) (content : Text)
  | directory
  /-- Nothing is there, in a directory that exists. -/
  | free (parts : List Text)
  | fault (r : Reason)

/-- Walks components from a directory. -/
def walk (fs : Files) : List Text → List Text → Spot
  | parts, [] =>
    match fs.content? parts with
    | some content => .file parts content
    | none => if fs.isDirectory parts then .directory else .free parts
  | parts, c :: rest =>
    if (fs.content? parts).isSome then .fault .notDirectory
    else if !fs.isDirectory parts then .fault .missing
    else if isHere c then walk fs parts rest
    else if c = utf8 ".." then if parts.isEmpty then .fault .missing else walk fs parts.dropLast rest
    else walk fs (parts ++ [c]) rest

def locate (fs : Files) (path : Text) : Spot :=
  match path with
  | [] => .fault .missing
  | Byte.slash :: _ => .fault .missing
  | _ => fs.walk [] (Text.splitOn Byte.slash path)

def read (fs : Files) (path : Text) : Except Fault Text :=
  match fs.locate path with
  | .file _ content => .ok content
  | .directory => .error ⟨.reading, path, .isDirectory⟩
  | .free _ => .error ⟨.opening, path, .missing⟩
  | .fault r => .error ⟨.opening, path, r⟩

/-- Puts a content in the place of a file, or adds it. -/
def put (fs : Files) (parts : List Text) (content : Text) : Files :=
  if (fs.content? parts).isSome then
    ⟨fs.entries.map fun e => if e.1 = parts then (parts, content) else e⟩
  else ⟨fs.entries ++ [(parts, content)]⟩

/-- Writes a whole file.  A path that ends in a slash names no file. -/
def write (fs : Files) (path content : Text) : Except Fault Files :=
  match fs.locate (Text.dropRight Byte.slash path), path.getLast? with
  | .fault r, _ => .error ⟨.opening, path, r⟩
  | _, some Byte.slash => .error ⟨.opening, path, .isDirectory⟩
  | .directory, _ => .error ⟨.opening, path, .isDirectory⟩
  | .file parts _, _ => .ok (fs.put parts content)
  | .free parts, _ => .ok (fs.put parts content)

/-- The files that are new or different from what they were before. -/
def changes (before after : Files) : List (Text × Text) :=
  (after.entries.filter fun e => before.content? e.1 ≠ some e.2).map fun e =>
    (Text.join [Byte.slash] e.1, e.2)

end Files
end WordC
