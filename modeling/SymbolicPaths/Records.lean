import SymbolicPaths.Graph

/-!
# Records

What is written about a binary: its metadata, its functions with the paths found in them, and its
blocks with their instructions. An `Artifact` holds all of it and is the unit that is stored.
-/

namespace SymbolicPaths

/-- The byte order of an architecture. -/
inductive Endianness where
  | little
  | big
  deriving DecidableEq

/-- A processor architecture. -/
structure Architecture where
  /-- Canonical name, such as `x86_64` or `arm64`. -/
  name : String
  bits : UInt32
  endianness : Endianness
  deriving DecidableEq

/-- Metadata of a binary. -/
structure BinaryInfo where
  architecture : Architecture
  /-- Address of the entry point. -/
  entry : Address
  /-- Known external routines by address, with their names. -/
  routines : Std.ExtTreeMap Address (List String)
  deriving DecidableEq

/-- A machine instruction with the fragments of intermediate code lifted from it. -/
structure InstructionRecord where
  address : Address
  mnemonic : String
  operands : String
  fragments : List String
  deriving DecidableEq

/-- A basic block. -/
structure BlockRecord where
  address : Address
  /-- Address of the function that the block belongs to. -/
  function : Address
  size : UInt64
  instructions : List InstructionRecord
  deriving DecidableEq

/-- The evaluated inputs and the block history of one symbolic state. Values of zero are left out,
so that `values` may be shorter than `unknowns`. -/
structure ExecutionPath where
  unknowns : List String
  values : List String
  history : List Address
  deriving DecidableEq

/-- A function with the paths found in it. -/
structure FunctionRecord where
  address : Address
  name : String
  blockCount : UInt64
  size : UInt64
  blocks : List Address
  /-- The blocks without successor. -/
  endpoints : List Address
  paths : List ExecutionPath
  deriving DecidableEq

/-- Everything known about a binary. -/
structure Artifact where
  binary : BinaryInfo
  functions : List FunctionRecord
  blocks : List BlockRecord
  deriving DecidableEq

namespace Artifact

/-- The first function with a given name. -/
def function? (a : Artifact) (name : String) : Option FunctionRecord :=
  a.functions.find? (·.name == name)

/-- The blocks of the function at an address, in order. -/
def blocksOf (a : Artifact) (function : Address) : List BlockRecord :=
  a.blocks.filter (·.function == function)

/-- The number of paths over all functions. -/
def pathCount (a : Artifact) : Nat :=
  (a.functions.flatMap (·.paths)).length

end Artifact

end SymbolicPaths
