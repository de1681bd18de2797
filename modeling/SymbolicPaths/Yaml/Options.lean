import SymbolicPaths.Options
import SymbolicPaths.Yaml.Node

/-!
# Options as YAML

Options are written as a mapping. Members may be missing and then have their defaults; members that
are not known are passed over; a known one may come once. A text without a document, or with a blank
one, stands for the defaults.

An alias is followed each time that it is read. So that a short text cannot stand for an endless
one, a document may have its aliases followed a hundred times for each of its events.
-/

namespace SymbolicPaths.Yaml

/-! ### Scalars -/

/-- Whether a text stands for nothing. -/
def isNull (text : String) : Bool :=
  ["~", "null", "Null", "NULL"].contains text

/-- The truth value that a text stands for. -/
def bool? : String → Option Bool
  | "true" | "True" | "TRUE" => some true
  | "false" | "False" | "FALSE" => some false
  | _ => none

/-- The number that digits in a base up to sixteen stand for. -/
def digits? (base : Nat) (text : List Char) : Option Nat := do
  if text.isEmpty then none
  let digits ← text.mapM hexValue?
  if digits.all (· < base) then return digits.foldl (fun n d => base * n + d) 0 else none

/-- The base that the beginning of a number tells, and the digits after it. -/
def based? : List Char → Option (Nat × List Char)
  | '0' :: 'x' :: rest => some (16, rest)
  | '0' :: 'o' :: rest => some (8, rest)
  | '0' :: 'b' :: rest => some (2, rest)
  | _ => none

/-- The natural number that a text stands for: decimal, or in another base if it says so. A decimal
number does not begin with a zero. -/
def natural? (text : List Char) : Option Nat :=
  match based? text with
  | some (base, digits) => digits? base digits
  | none => if 1 < text.length ∧ text.head? = some '0' then none else digits? 10 text

/-- The whole number that a text stands for. -/
def whole? (text : String) : Option Int :=
  match text.toList with
  | '+' :: rest => (natural? rest).map Int.ofNat
  | '-' :: rest => (natural? rest).map fun n => -(n : Int)
  | rest => (natural? rest).map Int.ofNat

/-- A number that must not have a sign for negative numbers, not even zero. -/
def unsigned? (text : String) : Option Nat :=
  match text.toList with
  | '-' :: _ => none
  | _ => (whole? text).map Int.toNat

/-! ### Nodes -/

/-- A step of reading values from a document. The state is how many aliases may still be
followed. -/
abbrev Reading := StateT Nat Option

namespace Document

/-- How many aliases may be followed while values are read. -/
def aliasLimit (d : Document) : Nat :=
  100 * d.root.eventCount

/-- The node that a node stands for: an alias stands for another one. -/
def resolve (d : Document) : Node → Reading Node
  | .alias number => do
    let left + 1 ← get | failure
    set left
    d.target number
  | n => return n

/-- Whether a node is the scalar for which nothing is written. A tag does not count. -/
def isBlank : Node → Bool
  | .scalar text style _ => text.isEmpty && style = .plain
  | _ => false

/-- The text of a scalar that may stand for something other than itself: a plain one, or a literal
one that is tagged with the type wanted. -/
def symbol (d : Document) (type : String) (n : Node) : Reading String := do
  match ← d.resolve n with
  | .scalar text .plain _ => return text
  | .scalar text .literal tag => if tag = some (standardTag type) then return text else failure
  | _ => failure

/-- The text of a scalar. -/
def text (d : Document) (n : Node) : Reading String := do
  let .scalar text _ _ ← d.resolve n | failure
  return text

/-- The truth value of a scalar. -/
def bool (d : Document) (n : Node) : Reading Bool := do
  bool? (← d.symbol "bool" n)

/-- The natural number of a scalar, which has to be less than a limit. -/
def natural (d : Document) (limit : Nat) (n : Node) : Reading Nat := do
  let value ← unsigned? (← d.symbol "int" n)
  if value < limit then return value else failure

/-- The signed number of 64 bits of a scalar. -/
def signed (d : Document) (n : Node) : Reading Int64 := do
  let value ← whole? (← d.symbol "int" n)
  if Int64.minValue.toInt ≤ value ∧ value ≤ Int64.maxValue.toInt then return .ofInt value
  else failure

/-- The members of a sequence, each read. A blank node stands for none. -/
def list {α : Type} (d : Document) (item : Node → Reading α) (n : Node) : Reading (List α) := do
  match ← d.resolve n with
  | .sequence items => items.mapM item
  | n => if isBlank n then return [] else failure

/-- The entries of a mapping. A blank node stands for none. -/
def entries (d : Document) (n : Node) : Reading (List (Node × Node)) := do
  match ← d.resolve n with
  | .mapping entries => return entries
  | n => if isBlank n then return [] else failure

/-- A value that may be missing: a blank node, or a plain scalar that stands for nothing. One that
is tagged as nothing has to stand for it. -/
def optional {α : Type} (d : Document) (value : Node → Reading α) (n : Node) :
    Reading (Option α) := do
  let n ← d.resolve n
  match n with
  | .scalar text .plain none =>
    if text.isEmpty || isNull text then return none else some <$> value n
  | .scalar text .plain (some tag) =>
    if tag = standardTag "null" then if isNull text then return none else failure
    else some <$> value n
  | _ => some <$> value n

/-! ### Options -/

/-- Reads a set of names. -/
def names (d : Document) (n : Node) : Reading NameSet := do
  return .ofList (← d.list d.text n)

/-- Reads register offsets by architecture. Of several entries for one architecture the last
counts. -/
def exclusions (d : Document) (n : Node) : Reading (Std.ExtTreeMap String (List UInt64)) := do
  let entries ← (← d.entries n).mapM fun e => do
    let name ← d.text e.1
    let offsets ← d.list (d.natural UInt64.size) e.2
    return (name, offsets.map UInt64.ofNat)
  return entries.foldl (fun m e => m.insert e.1 e.2) ∅

/-- Reads a member into options. -/
def member (d : Document) (o : Options) (name : String) (n : Node) : Reading Options := do
  match name with
  | "functions" => return { o with functions := ← d.optional d.names n }
  | "tracelet" => return { o with tracelet := ← d.signed n }
  | "allow_overlap" => return { o with allowOverlap := ← d.bool n }
  | "loop_bound" => return { o with loopBound := .ofNat (← d.natural UInt32.size n) }
  | "verbosity" => return { o with verbosity := .ofNat (← d.natural UInt8.size n) }
  | "register_exclusions" => return { o with registerExclusions := ← d.exclusions n }
  | "jobs" => return { o with jobs := (← d.optional (d.natural UInt64.size) n).map UInt64.ofNat }
  | _ => return o

/-- The members that are known. -/
def knownMembers : List String :=
  ["functions", "tracelet", "allow_overlap", "loop_bound", "verbosity", "register_exclusions",
    "jobs"]

/-- Reads options. -/
def options (d : Document) : Reading Options := do
  let entries ← (← d.entries d.root).mapM fun e => return (← d.text e.1, e.2)
  let known := (entries.map (·.1)).filter knownMembers.contains
  if known.eraseDups ≠ known then failure
  entries.foldlM (fun o e => d.member o e.1 e.2) {}

/-- The options that a document holds. -/
def options? (d : Document) : Option Options :=
  d.options.run' d.aliasLimit

end Document

end SymbolicPaths.Yaml

namespace SymbolicPaths.Options

/-- Reads the text of options. -/
def ofYaml? (text : String) : Option Options := do
  match ← Yaml.Document.ofText? text with
  | some document => document.options?
  | none => return {}

end SymbolicPaths.Options
