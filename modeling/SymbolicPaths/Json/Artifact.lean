import SymbolicPaths.Json.Layout
import SymbolicPaths.Json.Reader
import SymbolicPaths.Json.Writer
import SymbolicPaths.Records

/-!
# Artifacts as JSON

The members of the objects have the names that tools which read such data sets expect. The names of
routines, the fragments of an instruction and the paths of a function may be missing; all else has
to be there.
-/

namespace SymbolicPaths

open Json Json.Reader

/-! ### Architectures -/

namespace Endianness

/-- The name of a byte order. -/
def name : Endianness → String
  | .little => "little"
  | .big => "big"

/-- The byte order with a given name. -/
def ofName? : String → Option Endianness
  | "little" => some .little
  | "big" => some .big
  | _ => none

/-- Reads a byte order: its name, or an object with that name for its only key and null for a
value. -/
def read : Reader Endianness := fun tokens =>
  match tokens with
  | .openObject :: rest => inObject rest
  | tokens => named key tokens
where
  /-- Reads the name of a byte order. -/
  named (name : Reader String) : Reader Endianness := do
    match ofName? (← name) with
    | some e => return e
    | none => reject
  /-- Reads the object after its bracket. -/
  inObject : Reader Endianness := do
    let e ← named Reader.text
    expect .colon
    null
    expect .closeObject
    return e

end Endianness

namespace Architecture

/-- The tokens of an architecture. -/
def tokens (a : Architecture) : List Token :=
  object [
    ("name", text a.name),
    ("bits", [.int a.bits.toNat]),
    ("endianness", text a.endianness.name)]

/-- An architecture that is being read. -/
structure Draft where
  name : Option String := none
  bits : Option UInt32 := none
  endianness : Option Endianness := none

/-- The fields of an architecture. -/
def fields : List (Member Draft) := [
  ⟨"name", (·.name.isSome), fun d => return { d with name := ← Reader.text }⟩,
  ⟨"bits", (·.bits.isSome), fun d => return { d with bits := ← halfWord }⟩,
  ⟨"endianness", (·.endianness.isSome), fun d => return { d with endianness := ← Endianness.read }⟩]

/-- The architecture that a draft describes. -/
def Draft.complete (d : Draft) : Option Architecture :=
  return ⟨← d.name, ← d.bits, ← d.endianness⟩

/-- Reads an architecture. -/
def read : Reader Architecture :=
  record fields {} Draft.complete

end Architecture

/-! ### Binaries -/

namespace BinaryInfo

/-- The tokens of the routines of a binary: their addresses are keys, and hence strings. -/
def routineTokens (routines : Std.ExtTreeMap Address (List String)) : List Token :=
  object (routines.toList.map fun r => (toString r.1.toNat, texts r.2))

/-- The tokens of the metadata of a binary. -/
def tokens (b : BinaryInfo) : List Token :=
  object [
    ("arch", b.architecture.tokens),
    ("entry", word b.entry),
    ("sim_procedures", routineTokens b.routines)]

/-- Metadata that is being read. -/
structure Draft where
  architecture : Option Architecture := none
  entry : Option Address := none
  routines : Option (Std.ExtTreeMap Address (List String)) := none

/-- The fields of the metadata. -/
def fields : List (Member Draft) := [
  ⟨"arch", (·.architecture.isSome), fun d => return { d with architecture := ← Architecture.read }⟩,
  ⟨"entry", (·.entry.isSome), fun d => return { d with entry := ← Reader.word }⟩,
  ⟨"sim_procedures", (·.routines.isSome), fun d =>
    return { d with routines := ← map wordKey (list Reader.text) }⟩]

/-- The metadata that a draft describes. -/
def Draft.complete (d : Draft) : Option BinaryInfo :=
  return ⟨← d.architecture, ← d.entry, d.routines.getD ∅⟩

/-- Reads the metadata of a binary. -/
def read : Reader BinaryInfo :=
  record fields {} Draft.complete

end BinaryInfo

/-! ### Blocks -/

namespace InstructionRecord

/-- The tokens of an instruction. -/
def tokens (i : InstructionRecord) : List Token :=
  object [
    ("addr", word i.address),
    ("mne", text i.mnemonic),
    ("oprs", text i.operands),
    ("vex", texts i.fragments)]

/-- An instruction that is being read. -/
structure Draft where
  address : Option Address := none
  mnemonic : Option String := none
  operands : Option String := none
  fragments : Option (List String) := none

/-- The fields of an instruction. -/
def fields : List (Member Draft) := [
  ⟨"addr", (·.address.isSome), fun d => return { d with address := ← Reader.word }⟩,
  ⟨"mne", (·.mnemonic.isSome), fun d => return { d with mnemonic := ← Reader.text }⟩,
  ⟨"oprs", (·.operands.isSome), fun d => return { d with operands := ← Reader.text }⟩,
  ⟨"vex", (·.fragments.isSome), fun d => return { d with fragments := ← list Reader.text }⟩]

/-- The instruction that a draft describes. -/
def Draft.complete (d : Draft) : Option InstructionRecord :=
  return ⟨← d.address, ← d.mnemonic, ← d.operands, d.fragments.getD []⟩

/-- Reads an instruction. -/
def read : Reader InstructionRecord :=
  record fields {} Draft.complete

end InstructionRecord

namespace BlockRecord

/-- The tokens of a block. -/
def tokens (b : BlockRecord) : List Token :=
  object [
    ("addr", word b.address),
    ("f_addr", word b.function),
    ("size", word b.size),
    ("ins", array (b.instructions.map (·.tokens)))]

/-- A block that is being read. -/
structure Draft where
  address : Option Address := none
  function : Option Address := none
  size : Option UInt64 := none
  instructions : Option (List InstructionRecord) := none

/-- The fields of a block. -/
def fields : List (Member Draft) := [
  ⟨"addr", (·.address.isSome), fun d => return { d with address := ← Reader.word }⟩,
  ⟨"f_addr", (·.function.isSome), fun d => return { d with function := ← Reader.word }⟩,
  ⟨"size", (·.size.isSome), fun d => return { d with size := ← Reader.word }⟩,
  ⟨"ins", (·.instructions.isSome), fun d =>
    return { d with instructions := ← list InstructionRecord.read }⟩]

/-- The block that a draft describes. -/
def Draft.complete (d : Draft) : Option BlockRecord :=
  return ⟨← d.address, ← d.function, ← d.size, ← d.instructions⟩

/-- Reads a block. -/
def read : Reader BlockRecord :=
  record fields {} Draft.complete

end BlockRecord

/-! ### Functions -/

namespace ExecutionPath

/-- The tokens of a path. -/
def tokens (p : ExecutionPath) : List Token :=
  object [
    ("vars", texts p.unknowns),
    ("vars_res", texts p.values),
    ("addr", words p.history)]

/-- A path that is being read. -/
structure Draft where
  unknowns : Option (List String) := none
  values : Option (List String) := none
  history : Option (List Address) := none

/-- The fields of a path. -/
def fields : List (Member Draft) := [
  ⟨"vars", (·.unknowns.isSome), fun d => return { d with unknowns := ← list Reader.text }⟩,
  ⟨"vars_res", (·.values.isSome), fun d => return { d with values := ← list Reader.text }⟩,
  ⟨"addr", (·.history.isSome), fun d => return { d with history := ← list Reader.word }⟩]

/-- The path that a draft describes. -/
def Draft.complete (d : Draft) : Option ExecutionPath :=
  return ⟨← d.unknowns, ← d.values, ← d.history⟩

/-- Reads a path. -/
def read : Reader ExecutionPath :=
  record fields {} Draft.complete

end ExecutionPath

namespace FunctionRecord

/-- The tokens of a function. -/
def tokens (f : FunctionRecord) : List Token :=
  object [
    ("addr", word f.address),
    ("name", text f.name),
    ("bbs_len", word f.blockCount),
    ("size", word f.size),
    ("bbs", words f.blocks),
    ("eps", words f.endpoints),
    ("paths", array (f.paths.map (·.tokens)))]

/-- A function that is being read. -/
structure Draft where
  address : Option Address := none
  name : Option String := none
  blockCount : Option UInt64 := none
  size : Option UInt64 := none
  blocks : Option (List Address) := none
  endpoints : Option (List Address) := none
  paths : Option (List ExecutionPath) := none

/-- The fields of a function. -/
def fields : List (Member Draft) := [
  ⟨"addr", (·.address.isSome), fun d => return { d with address := ← Reader.word }⟩,
  ⟨"name", (·.name.isSome), fun d => return { d with name := ← Reader.text }⟩,
  ⟨"bbs_len", (·.blockCount.isSome), fun d => return { d with blockCount := ← Reader.word }⟩,
  ⟨"size", (·.size.isSome), fun d => return { d with size := ← Reader.word }⟩,
  ⟨"bbs", (·.blocks.isSome), fun d => return { d with blocks := ← list Reader.word }⟩,
  ⟨"eps", (·.endpoints.isSome), fun d => return { d with endpoints := ← list Reader.word }⟩,
  ⟨"paths", (·.paths.isSome), fun d => return { d with paths := ← list ExecutionPath.read }⟩]

/-- The function that a draft describes. -/
def Draft.complete (d : Draft) : Option FunctionRecord :=
  return ⟨← d.address, ← d.name, ← d.blockCount, ← d.size, ← d.blocks, ← d.endpoints,
    d.paths.getD []⟩

/-- Reads a function. -/
def read : Reader FunctionRecord :=
  record fields {} Draft.complete

end FunctionRecord

/-! ### Artifacts -/

namespace Artifact

/-- The tokens of an artifact. -/
def tokens (a : Artifact) : List Token :=
  object [
    ("bin", a.binary.tokens),
    ("functions", array (a.functions.map (·.tokens))),
    ("blocks", array (a.blocks.map (·.tokens)))]

/-- An artifact that is being read. -/
structure Draft where
  binary : Option BinaryInfo := none
  functions : Option (List FunctionRecord) := none
  blocks : Option (List BlockRecord) := none

/-- The fields of an artifact. -/
def fields : List (Member Draft) := [
  ⟨"bin", (·.binary.isSome), fun d => return { d with binary := ← BinaryInfo.read }⟩,
  ⟨"functions", (·.functions.isSome), fun d =>
    return { d with functions := ← list FunctionRecord.read }⟩,
  ⟨"blocks", (·.blocks.isSome), fun d => return { d with blocks := ← list BlockRecord.read }⟩]

/-- The artifact that a draft describes. -/
def Draft.complete (d : Draft) : Option Artifact :=
  return ⟨← d.binary, ← d.functions, ← d.blocks⟩

/-- Reads an artifact. -/
def read : Reader Artifact :=
  record fields {} Draft.complete

/-- An artifact as it is stored, without blanks. -/
def compactText (a : Artifact) : List UInt8 :=
  compact a.tokens

/-- An artifact as it is shown, with one member per line. -/
def prettyText (a : Artifact) : List UInt8 :=
  pretty a.tokens

/-- Reads the text of an artifact. -/
def ofText (text : List UInt8) : Except Fault Artifact :=
  readText read text

end Artifact

end SymbolicPaths
