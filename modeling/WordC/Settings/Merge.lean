import WordC.Settings.Fault
import WordC.Yaml.Scalar
import WordC.Yaml.Tree
/-!
The pairs of a mapping, with those that are merged into it.

The value of the merge key is a mapping, or a sequence of mappings.  Their pairs
count as pairs of the mapping around them where it has no such key itself, and of
two merged pairs with one name the earlier counts.  A merged mapping may merge
others in turn.
-/

namespace WordC
namespace Settings

open Yaml (Tree Scalar)

/-- What tells keys apart.  Collections of one kind count as the same key. -/
def keyText : Tree → Nat × Text
  | .scalar _ text _ => (0, text)
  | .sequence _ _ => (1, [])
  | .mapping _ _ => (2, [])

/-- Every pair of equal keys, by the earlier one first. -/
def repeatedKeys : List (Tree × Tree) → List Fault
  | [] => []
  | (key, _) :: rest =>
    (rest.filterMap fun (other, _) =>
      if keyText other = keyText key then
        some (.repeatedKey other.line (keyText other).2 key.line)
      else none) ++ repeatedKeys rest

def isMerge : Tree → Bool
  | .scalar _ text quoted => Scalar.ofText text quoted = .merge
  | _ => false

/-- The name that a key of a merged mapping stands for. -/
def name? : Tree → Option Text
  | .scalar _ text quoted => if Scalar.ofText text quoted = .null then none else some text
  | _ => none

/-- The name that a key keeps out of the mappings merged with it.  Keys that are
no text keep nothing out. -/
def ownName? : Tree → Option Text
  | .scalar _ text quoted =>
    match Scalar.ofText text quoted with
    | .text | .merge => some text
    | _ => none
  | _ => none

/-- What is read in turn. -/
inductive Entry where
  | pair (key value : Tree)
  /-- A merged mapping whose pairs are not looked at because of its repeated
  keys. -/
  | repeated (faults : List Fault)

/-- The pairs of a merged mapping whose names are not in `seen`, and `seen` with
their names. -/
def unseen : List (Tree × Tree) → (seen : List Text) → List Entry × List Text
  | [], seen => ([], seen)
  | (key, value) :: rest, seen =>
    let known := (name? key).any seen.contains
    if isMerge key || known then unseen rest seen
    else
      let (entries, seen) := unseen rest ((name? key).toList ++ seen)
      (.pair key value :: entries, seen)

mutual

/-- The entries that the value of a merge key contributes. -/
def merged : Tree → (seen : List Text) → Option (List Entry × List Text)
  | .scalar _ _ _, _ => none
  | .sequence _ items, seen => mergedItems items seen
  | .mapping _ pairs, seen =>
    match repeatedKeys pairs with
    | [] => do
      let (entries, seen) := unseen pairs seen
      let (more, seen) ← mergedAmong pairs seen
      some (entries ++ more, seen)
    | faults => some ([.repeated faults], seen)

/-- The entries of a sequence of mappings. -/
def mergedItems : List Tree → (seen : List Text) → Option (List Entry × List Text)
  | [], seen => some ([], seen)
  | item :: rest, seen => do
    match item with
    | .mapping _ _ => do
      let (entries, seen) ← merged item seen
      let (more, seen) ← mergedItems rest seen
      some (entries ++ more, seen)
    | _ => none

/-- The entries of the merge key among the pairs of a mapping. -/
def mergedAmong : List (Tree × Tree) → (seen : List Text) → Option (List Entry × List Text)
  | [], seen => some ([], seen)
  | (key, value) :: rest, seen =>
    if isMerge key then merged value seen else mergedAmong rest seen

end

/-- The entries of a mapping, the merged ones last.  None if something else than
mappings is merged. -/
def entries? (pairs : List (Tree × Tree)) : Option (List Entry) := do
  let own := (pairs.filter fun p => !isMerge p.1).map fun p => Entry.pair p.1 p.2
  let (more, _) ← mergedAmong pairs (pairs.filterMap fun p => ownName? p.1)
  some (own ++ more)

end Settings
end WordC
