import WordC.Yaml.Scan.Queue
/-!
The tree of a settings document.

Only the first document of a text counts.  The reader looks at the token behind
its end, which brings two more into view, and the rest of a line if that token may
be a key.  The document is refused for faults so far.  Whatever follows later is
ignored.
-/

namespace WordC
namespace Yaml

/-- A node and the line it starts on.  A value that is left out is a plain scalar
without text. -/
inductive Tree where
  | scalar (line : Nat) (text : Text) (quoted : Bool)
  | sequence (line : Nat) (items : List Tree)
  | mapping (line : Nat) (pairs : List (Tree × Tree))

namespace Tree

def line : Tree → Nat
  | scalar l _ _ => l
  | sequence l _ => l
  | mapping l _ => l

/-- A node that is left out. -/
def omitted (line : Nat) : Tree := scalar line [] false

open Scanner (peek take refuse)

mutual

/-- Reads a node.  Block collections are accepted in block context only, and a
sequence without indentation of its own only as a key or value of a block
mapping. -/
def node : Nat → (block bare : Bool) → Scanner Tree
  | 0, _, _ => refuse
  | n + 1, block, bare => do
    let t ← peek
    match t.kind with
    | .scalar text quoted => do
      take
      pure (.scalar t.line text quoted)
    | .flowSequence => do
      take
      pure (.sequence t.line (← flowItems n true))
    | .flowMapping => do
      take
      pure (.mapping t.line (← flowPairs n true))
    | .entry => if bare then do pure (.sequence t.line (← bareItems n)) else refuse
    | .blockSequence =>
      if block then do
        take
        pure (.sequence t.line (← blockItems n))
      else refuse
    | .blockMapping =>
      if block then do
        take
        pure (.mapping t.line (← blockPairs n))
      else refuse
    | _ => refuse

/-- Reads a node in block context that is left out when one of the tokens `stops`
comes next.  Then it stands on the line of the token that announces it. -/
def blockNode : Nat → (stops : List Token.Kind) → (bare : Bool) → (line : Nat) → Scanner Tree
  | 0, _, _, _ => refuse
  | n + 1, stops, bare, line => do
    if stops.contains (← peek).kind then pure (omitted line) else node n true bare

/-- Reads a node in flow context that is left out when one of the tokens `stops`
comes next, and stands on the line of that token then. -/
def flowNode : Nat → (stops : List Token.Kind) → Scanner Tree
  | 0, _ => refuse
  | n + 1, stops => do
    let t ← peek
    if stops.contains t.kind then pure (omitted t.line) else node n false false

def blockItems : Nat → Scanner (List Tree)
  | 0 => refuse
  | n + 1 => do
    let t ← peek
    match t.kind with
    | .entry => do
      take
      let item ← blockNode n [.entry, .blockEnd] false t.line
      pure (item :: (← blockItems n))
    | .blockEnd => do
      take
      pure []
    | _ => refuse

def bareItems : Nat → Scanner (List Tree)
  | 0 => refuse
  | n + 1 => do
    let t ← peek
    match t.kind with
    | .entry => do
      take
      let item ← blockNode n [.entry, .key, .value, .blockEnd] false t.line
      pure (item :: (← bareItems n))
    | _ => pure []

def blockPairs : Nat → Scanner (List (Tree × Tree))
  | 0 => refuse
  | n + 1 => do
    let t ← peek
    match t.kind with
    | .key => do
      take
      let stops := [.key, .value, .blockEnd]
      let key ← blockNode n stops true t.line
      let t ← peek
      let value ←
        if t.kind = .value then do
          take
          blockNode n stops true t.line
        else pure (omitted t.line)
      pure ((key, value) :: (← blockPairs n))
    | .blockEnd => do
      take
      pure []
    | _ => refuse

/-- Reads the value of a pair in a flow collection that the given token closes. -/
def flowValue : Nat → (close : Token.Kind) → Scanner Tree
  | 0, _ => refuse
  | n + 1, close => do
    let t ← peek
    if t.kind = .value then do
      take
      flowNode n [.comma, close]
    else pure (omitted t.line)

/-- Reads the entries of a flow sequence.  All but the first follow a comma.  An
entry with a key is a mapping of one pair, and the token before which its key is
left out goes with the key. -/
def flowItems : Nat → (first : Bool) → Scanner (List Tree)
  | 0, _ => refuse
  | n + 1, first => do
    let t ← peek
    if t.kind = .flowSequenceEnd then do
      take
      pure []
    else if !first && t.kind ≠ .comma then refuse
    else do
      if !first then take
      let t ← peek
      match t.kind with
      | .flowSequenceEnd => do
        take
        pure []
      | .key => do
        take
        let k ← peek
        let key ←
          if [.value, .comma, .flowSequenceEnd].contains k.kind then do
            take
            pure (omitted k.line)
          else node n false false
        let value ← flowValue n .flowSequenceEnd
        pure (.mapping t.line [(key, value)] :: (← flowItems n false))
      | _ => do
        let item ← node n false false
        pure (item :: (← flowItems n false))

/-- Reads the pairs of a flow mapping.  A key without a colon has no value. -/
def flowPairs : Nat → (first : Bool) → Scanner (List (Tree × Tree))
  | 0, _ => refuse
  | n + 1, first => do
    let t ← peek
    if t.kind = .flowMappingEnd then do
      take
      pure []
    else if !first && t.kind ≠ .comma then refuse
    else do
      if !first then take
      let t ← peek
      match t.kind with
      | .flowMappingEnd => do
        take
        pure []
      | .key => do
        take
        let key ← flowNode n [.value, .comma, .flowMappingEnd]
        let value ← flowValue n .flowMappingEnd
        pure ((key, value) :: (← flowPairs n false))
      | _ => do
        let key ← node n false false
        pure ((key, omitted key.line) :: (← flowPairs n false))

end

/-- Reads the first document, none if there is none at all.  A character gives at
most a bracket, a dash or a mark of a key, and a block token or two with it. -/
def document : Scanner (Option Tree) := do
  let fuel := 12 * (← Scanner.bound) + 12
  let _ ← peek
  take
  let t ← peek
  match t.kind with
  | .finish => pure none
  | .documentStart => do
    take
    let tree ← blockNode fuel [.documentStart, .documentEnd, .finish] false t.line
    let _ ← peek
    pure (some tree)
  | _ => do
    let tree ← node fuel true false
    let _ ← peek
    pure (some tree)

/-- The tree of a text, none if it is malformed. -/
def parse? (t : Text) : Option (Option Tree) := (document.run (Scan.ofText t)).map Prod.fst

end Tree
end Yaml
end WordC
