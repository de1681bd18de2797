import SymbolicPaths.CommandLine.Argument

/-!
# Commands

What a command line asks for. An option that takes one value may be given once, and so may a flag,
except for the one that counts.
-/

namespace SymbolicPaths.CommandLine

/-- What the user chose about a dump on the command line. -/
structure Choices where
  functions : List String := []
  tracelet : Option Int64 := none
  allowOverlap : Bool := false
  loopBound : Option UInt32 := none
  /-- Path of an options file. -/
  config : Option String := none
  /-- The architecture to assume where a file does not name a known one. -/
  architecture : Option String := none
  /-- How often more output was asked for. -/
  verbosity : UInt8 := 0
  deriving DecidableEq

/-- What a command line asks for. -/
inductive Command where
  | version
  | dump (binary : String) (choices : Choices)
  | batch (binaries : List String) (jobs : Option UInt64) (choices : Choices)
  | display (artifact : String) (json : Bool)
  deriving DecidableEq

/-- Why a command line asks for no command. -/
inductive Refusal where
  /-- It is not understood. -/
  | misuse
  /-- It asks how the program is used. -/
  | help
  /-- It asks for the name and version of the program. -/
  | about
  deriving DecidableEq

/-! ### Numbers -/

/-- A number in decimal digits, with or without a sign. -/
def whole? (text : String) : Option Int :=
  match text.toList with
  | '-' :: digits => (decimal? digits).map fun n => -n
  | '+' :: digits => (decimal? digits).map fun n => n
  | digits => (decimal? digits).map fun n => n
where
  decimal? (digits : List Char) : Option Nat :=
    if !digits.isEmpty && digits.all (·.isDigit) then
      some (digits.foldl (fun n c => 10 * n + (c.toNat - '0'.toNat)) 0)
    else none

/-- A number of 64 bits with sign. -/
def signed? (text : String) : Option Int64 := do
  let n ← whole? text
  if Int64.minValue.toInt ≤ n ∧ n ≤ Int64.maxValue.toInt then some (.ofInt n) else none

/-- A number of 32 bits. -/
def halfWord? (text : String) : Option UInt32 := do
  let n ← whole? text
  if 0 ≤ n ∧ n < UInt32.size then some (.ofNat n.toNat) else none

/-- A number of 64 bits. It has no minus sign, not even in front of zero. -/
def word? (text : String) : Option UInt64 := do
  if text.toList.head? = some '-' then none
  let n ← whole? text
  if n < UInt64.size then some (.ofNat n.toNat) else none

/-! ### Reading a command -/

/-- What has been given so far. -/
structure Given where
  operands : List String := []
  binary : Option String := none
  jobs : Option UInt64 := none
  json : Bool := false
  choices : Choices := {}

/-- The value of an option that may be given once. -/
def once {α : Type} (before : Option α) (value : Option α) : Except Refusal (Option α) :=
  match before, value with
  | none, some value => .ok (some value)
  | _, _ => .error .misuse

/-- Takes note of a setting. -/
def Given.set (g : Given) (name value : String) : Except Refusal Given := do
  let c := g.choices
  match name with
  | "binary" => return { g with binary := ← once g.binary value }
  | "jobs" => return { g with jobs := ← once g.jobs (word? value) }
  | "function" => return { g with choices := { c with functions := c.functions ++ [value] } }
  | "tracelet" =>
    return { g with choices := { c with tracelet := ← once c.tracelet (signed? value) } }
  | "loop-bound" =>
    return { g with choices := { c with loopBound := ← once c.loopBound (halfWord? value) } }
  | "config" => return { g with choices := { c with config := ← once c.config value } }
  | "arch" => return { g with choices := { c with architecture := ← once c.architecture value } }
  | _ => throw .misuse

/-- Takes note of a flag. -/
def Given.raise (g : Given) (name : String) : Except Refusal Given := do
  let c := g.choices
  match name with
  | "help" => throw .help
  | "version" => throw .about
  | "json" => if g.json then throw .misuse else return { g with json := true }
  | "allow-overlap" =>
    if c.allowOverlap then throw .misuse
    else return { g with choices := { c with allowOverlap := true } }
  | "verbose" =>
    let verbosity := if c.verbosity = 255 then 255 else c.verbosity + 1
    return { g with choices := { c with verbosity } }
  | _ => throw .misuse

/-- Takes note of an argument. -/
def Given.add (v : Vocabulary) (g : Given) : Argument → Except Refusal Given
  | .flag name => g.raise name
  | .setting name value => g.set name value
  | .operand text =>
    if v.hasRoom g.operands.length then .ok { g with operands := g.operands ++ [text] }
    else .error .misuse
  | .unknown => .error .misuse

/-- What the words of a command line give. -/
def Given.ofWords (v : Vocabulary) (words : List String) : Except Refusal Given :=
  (v.read words).foldlM (Given.add v) {}

/-- The options of a command line without command. -/
def Vocabulary.bare : Vocabulary where
  flags := ["help", "version"]
  settings := []
  letters := [('h', "help"), ('V', "version")]

/-- The options of the `version` command. -/
def Vocabulary.version : Vocabulary where
  flags := ["help"]
  settings := []
  letters := [('h', "help")]

/-- The options of the `dump` command. -/
def Vocabulary.dump : Vocabulary where
  flags := ["help", "allow-overlap", "verbose"]
  settings := ["binary", "function", "tracelet", "loop-bound", "config", "arch"]
  signed := ["tracelet"]
  letters := [('h', "help"), ('v', "verbose")]

/-- The options of the `batch` command. -/
def Vocabulary.batch : Vocabulary where
  flags := ["help", "allow-overlap", "verbose"]
  settings := ["jobs", "function", "tracelet", "loop-bound", "config", "arch"]
  signed := ["tracelet"]
  letters := [('h', "help"), ('v', "verbose")]
  room := none

/-- The options of the `show` command. -/
def Vocabulary.display : Vocabulary where
  flags := ["help", "json"]
  settings := []
  letters := [('h', "help")]
  room := some 1

namespace Command

/-- The names of commands. -/
def names : List String :=
  ["version", "dump", "batch", "show", "help"]

/-- Whether help can be had on what words name: nothing, or one command. Commands have no commands
of their own. -/
def isTopic : List String → Bool
  | [] => true
  | [name] => names.contains name
  | _ => false

/-- Reads the words behind the name of a command. -/
def ofName (name : String) (words : List String) : Except Refusal Command := do
  match name with
  | "help" => throw (if isTopic words then .help else .misuse)
  | "version" =>
    let _ ← Given.ofWords .version words
    return .version
  | "dump" =>
    let g ← Given.ofWords .dump words
    let some binary := g.binary | throw .misuse
    return .dump binary g.choices
  | "batch" =>
    let g ← Given.ofWords .batch words
    if g.operands.isEmpty then throw .misuse
    return .batch g.operands g.jobs g.choices
  | "show" =>
    let g ← Given.ofWords .display words
    let [artifact] := g.operands | throw .misuse
    return .display artifact g.json
  | _ => throw .misuse

/-- Reads a command line. Without a command it asks for the version. -/
def ofWords : List String → Except Refusal Command
  | [] => return .version
  | word :: rest => do
    if Shape.ofWord word = .plain then return ← ofName word rest
    let _ ← Given.ofWords .bare (word :: rest)
    return .version

end Command

end SymbolicPaths.CommandLine
