import SymbolicPaths.Yaml.Token

/-!
# YAML nodes

The tree of a document. A node may have a name, its anchor, under which it can be used again; such a
use is an `alias` and holds a number that `Document.target` looks up.

Anchors are numbered by how many names are known when they are set, and an alias stands for the last
node that was set under the number that its name has at that point.
-/

namespace SymbolicPaths.Yaml

/-- A node of a document. -/
inductive Node where
  | scalar (text : String) (style : Style) (tag : Option (List UInt8))
  | sequence (items : List Node)
  | mapping (entries : List (Node × Node))
  | alias (number : Nat)

namespace Node

/-- The scalar for which nothing is written. -/
def blank : Node := .scalar "" .plain none

mutual

/-- How many events it takes to tell of a node: one for a scalar or an alias, and for a collection
one for its beginning and one for its end. -/
def eventCount : Node → Nat
  | .scalar .. | .alias _ => 1
  | .sequence items => 2 + itemEvents items
  | .mapping entries => 2 + entryEvents entries

/-- How many events it takes to tell of the items of a sequence. -/
def itemEvents : List Node → Nat
  | [] => 0
  | n :: rest => n.eventCount + itemEvents rest

/-- How many events it takes to tell of the entries of a mapping. -/
def entryEvents : List (Node × Node) → Nat
  | [] => 0
  | (key, value) :: rest => key.eventCount + value.eventCount + entryEvents rest

end

end Node

/-- A document: its root, and the nodes behind aliases. -/
structure Document where
  root : Node
  /-- The places of anchored nodes by number, latest first. -/
  numbers : List (Nat × Nat)
  /-- Anchored nodes by place. -/
  anchored : List (Nat × Node)

/-- The node that an alias stands for. -/
def Document.target (d : Document) (number : Nat) : Option Node := do
  d.anchored.lookup (← d.numbers.lookup number)

/-- The tag of a standard type. -/
def standardTag (name : String) : List UInt8 :=
  ("tag:yaml.org,2002:" ++ name).toUTF8.toList

/-! ### Reading nodes -/

/-- What is known while a document is read. -/
structure Composer where
  tokens : List Token
  /-- Abbreviations for the beginning of tags. -/
  handles : List (String × List UInt8)
  /-- The numbers of anchors by name, latest first. -/
  names : List (String × Nat)
  /-- The number of different names. -/
  known : Nat
  numbers : List (Nat × Nat)
  anchored : List (Nat × Node)

/-- A step of reading a document. -/
abbrev Compose := StateT Composer Option

namespace Compose

/-- What comes next. -/
def peek : Compose (Option Token) :=
  return (← get).tokens.head?

/-- Passes over a token. -/
def advance : Compose Unit :=
  modify fun s => { s with tokens := s.tokens.tail }

/-- Passes over a token, if it comes next, and tells whether it did. -/
def accept (t : Token) : Compose Bool := do
  if (← peek) = some t then
    advance
    return true
  else return false

/-- Passes over a token, which has to come next. -/
def expect (t : Token) : Compose Unit := do
  if !(← accept t) then failure

/-- Sets an anchor and gives it a place. -/
def setAnchor (name : String) : Compose Nat := do
  let s ← get
  let place := s.numbers.length
  set { s with
    names := (name, s.known) :: s.names
    known := if (s.names.lookup name).isSome then s.known else s.known + 1
    numbers := (s.known, place) :: s.numbers }
  return place

/-- The number of an alias. Its name has to be known. -/
def useAlias (name : String) : Compose Node := do
  match (← get).names.lookup name with
  | some number => return .alias number
  | none => failure

/-- The tag that a handle and a suffix stand for. -/
def expandTag (handle : String) (suffix : List UInt8) : Compose (List UInt8) := do
  if handle.isEmpty then return suffix
  match (← get).handles.lookup handle with
  | some expansion => return expansion ++ suffix
  | none => failure

/-- Reads a tag, if one comes next. -/
def tag? : Compose (Option (List UInt8)) := do
  match ← peek with
  | some (.tag handle suffix) =>
    advance
    return some (← expandTag handle suffix)
  | _ => return none

/-- Reads the name of an anchor, if one comes next. -/
def anchor? : Compose (Option String) := do
  match ← peek with
  | some (.anchor name) =>
    advance
    return some name
  | _ => return none

/-- Whether something comes next that ends a missing part of a block mapping. -/
def endsBlockPart : Option Token → Bool
  | some .key | some .value | some .blockEnd => true
  | _ => false

mutual

/-- Reads a node. Block collections are only read outside of brackets, and the entries of a block
sequence that is not indented only as part of a block mapping. -/
def node (block flat : Bool) : (fuel : Nat) → Compose Node
  | 0 => failure
  | fuel + 1 => do
    match ← peek with
    | some (.alias name) =>
      advance
      useAlias name
    | _ =>
      let before ← anchor?
      let tag ← tag?
      let anchor ← if before.isSome then pure before else if tag.isSome then anchor? else pure none
      let place ← anchor.mapM setAnchor
      let n ← content block flat (anchor.isSome || tag.isSome) tag fuel
      match place with
      | some place => modify fun s => { s with anchored := (place, n) :: s.anchored }
      | none => pure ()
      return n

/-- Reads a node after its anchor and tag. With one of these, there need not be anything else. -/
def content (block flat marked : Bool) (tag : Option (List UInt8)) : (fuel : Nat) → Compose Node
  | 0 => failure
  | fuel + 1 => do
    match ← peek with
    | some (.scalar text style) =>
      advance
      return .scalar text style tag
    | some .openSequence =>
      advance
      return .sequence (← flowItems true [] fuel)
    | some .openMapping =>
      advance
      return .mapping (← flowEntries true [] fuel)
    | some .entry =>
      if flat then return .sequence (← flatItems [] fuel)
      else if marked then return .scalar "" .plain tag
      else failure
    | some .sequenceStart =>
      if block then
        advance
        return .sequence (← blockItems [] fuel)
      else if marked then return .scalar "" .plain tag
      else failure
    | some .mappingStart =>
      if block then
        advance
        return .mapping (← blockEntries [] fuel)
      else if marked then return .scalar "" .plain tag
      else failure
    | _ => if marked then return .scalar "" .plain tag else failure

/-- Reads the entries of a block sequence. -/
def blockItems (read : List Node) : (fuel : Nat) → Compose (List Node)
  | 0 => failure
  | fuel + 1 => do
    if ← accept .entry then
      match ← peek with
      | some .entry | some .blockEnd => blockItems (.blank :: read) fuel
      | _ =>
        let n ← node true false fuel
        blockItems (n :: read) fuel
    else
      expect .blockEnd
      return read.reverse

/-- Reads the entries of a block sequence that is not indented. -/
def flatItems (read : List Node) : (fuel : Nat) → Compose (List Node)
  | 0 => failure
  | fuel + 1 => do
    if ← accept .entry then
      let next ← peek
      if next = some .entry || endsBlockPart next then flatItems (.blank :: read) fuel
      else
        let n ← node true false fuel
        flatItems (n :: read) fuel
    else return read.reverse

/-- Reads a part of a block mapping, if there is one. -/
def blockPart : (fuel : Nat) → Compose Node
  | 0 => failure
  | fuel + 1 => do
    if endsBlockPart (← peek) then return .blank else node true true fuel

/-- Reads the entries of a block mapping. -/
def blockEntries (read : List (Node × Node)) : (fuel : Nat) → Compose (List (Node × Node))
  | 0 => failure
  | fuel + 1 => do
    match ← peek with
    | some .key =>
      advance
      let key ← blockPart fuel
      let value ← if ← accept .value then blockPart fuel else pure .blank
      blockEntries ((key, value) :: read) fuel
    | _ =>
      expect .blockEnd
      return read.reverse

/-- Reads the entries of a sequence in brackets. An entry with a key is a mapping of its own. -/
def flowItems (first : Bool) (read : List Node) : (fuel : Nat) → Compose (List Node)
  | 0 => failure
  | fuel + 1 => do
    if ← accept .closeSequence then return read.reverse
    if !first then expect .comma
    match ← peek with
    | some .closeSequence =>
      advance
      return read.reverse
    | some .key =>
      advance
      let key ← match ← peek with
        | some .value | some .comma | some .closeSequence => do
          advance
          pure Node.blank
        | _ => node false false fuel
      let value ←
        if ← accept .value then
          match ← peek with
          | some .comma | some .closeSequence => pure Node.blank
          | _ => node false false fuel
        else pure Node.blank
      flowItems false (.mapping [(key, value)] :: read) fuel
    | _ =>
      let n ← node false false fuel
      flowItems false (n :: read) fuel

/-- Reads the entries of a mapping in brackets. -/
def flowEntries (first : Bool) (read : List (Node × Node)) :
    (fuel : Nat) → Compose (List (Node × Node))
  | 0 => failure
  | fuel + 1 => do
    if ← accept .closeMapping then return read.reverse
    if !first then expect .comma
    match ← peek with
    | some .closeMapping =>
      advance
      return read.reverse
    | some .key =>
      advance
      let key ← match ← peek with
        | some .value | some .comma | some .closeMapping => pure Node.blank
        | _ => node false false fuel
      let value ←
        if ← accept .value then
          match ← peek with
          | some .comma | some .closeMapping => pure Node.blank
          | _ => node false false fuel
        else pure Node.blank
      flowEntries false ((key, value) :: read) fuel
    | _ =>
      let key ← node false false fuel
      flowEntries false ((key, .blank) :: read) fuel

end

/-! ### Reading documents -/

/-- Reads the directives before a document. Each may come once, and the version has to be a known
one. -/
def directives : (fuel : Nat) → (versioned : Bool) → Compose Unit
  | 0, _ => failure
  | fuel + 1, versioned => do
    match ← peek with
    | some (.version major minor) =>
      if versioned || major ≠ 1 || minor ≠ 1 && minor ≠ 2 then failure
      advance
      directives fuel true
    | some (.tagHandle handle expansion) =>
      if ((← get).handles.lookup handle).isSome then failure
      modify fun s => { s with handles := s.handles ++ [(handle, expansion)] }
      advance
      directives fuel versioned
    | _ => return ()

/-- The abbreviations that are known without a directive. -/
def standardHandles : List (String × List UInt8) :=
  [("!", [0x21]), ("!!", standardTag "")]

/-- Passes over marks of the end of a document. -/
def skipEnds : (fuel : Nat) → Compose Unit
  | 0 => return ()
  | fuel + 1 => do
    if ← accept .documentEnd then skipEnds fuel

/-- Whether something comes next that does not belong to the content of a document. -/
def endsDocument : Option Token → Bool
  | none | some (.version ..) | some (.tagHandle ..) | some .documentStart | some .documentEnd =>
    true
  | _ => false

/-- Whether a document begins with something that is only known from a mark. -/
def beginsMarked : Option Token → Bool
  | some (.version ..) | some (.tagHandle ..) | some .documentStart => true
  | _ => false

/-- Reads the only document of a text, if there is one. Nothing may follow it but marks of its
end. -/
def stream (fuel : Nat) : Compose (Option Node) := do
  let next ← peek
  if next.isNone then return none
  let root ←
    if beginsMarked next then do
      directives fuel false
      expect .documentStart
      modify fun s => { s with
        handles := s.handles ++ standardHandles.filter fun h => (s.handles.lookup h.1).isNone }
      if endsDocument (← peek) then pure Node.blank else node true false fuel
    else do
      modify fun s => { s with handles := standardHandles }
      node true false fuel
  skipEnds fuel
  if (← peek).isSome then failure
  return some root

end Compose

/-- Reads a text with at most one document. The outer result is missing for a text that is no YAML,
the inner one for a text without a document. -/
def Document.ofText? (text : String) : Option (Option Document) := do
  let tokens ← Token.scan? text
  let (root, s) ← (Compose.stream (4 * tokens.length + 4)).run ⟨tokens, [], [], 0, [], []⟩
  return root.map fun root => ⟨root, s.numbers, s.anchored⟩

end SymbolicPaths.Yaml
