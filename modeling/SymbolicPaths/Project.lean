import SymbolicPaths.Exploration

/-!
# Projects

A `Project` is a loaded binary: its metadata, its functions, its basic blocks by address, the
control flow between them, and the engine that executes them.
-/

namespace SymbolicPaths

/-- What can go wrong with a binary. -/
inductive BinaryError where
  /-- There is no file at this path. -/
  | missing (path : String)
  /-- The file cannot be read or understood. -/
  | load (path reason : String)
  /-- The control flow cannot be recovered. -/
  | recovery (reason : String)
  /-- There is no block at this address. -/
  | missingBlock (address : Address)
  /-- The block at this address cannot be lifted to intermediate code. -/
  | lift (address : Address) (reason : String)
  deriving DecidableEq

/-- The text of a binary error. -/
def BinaryError.message : BinaryError → String
  | .missing path => s!"Binary not found at {path}"
  | .load path reason => s!"Failed to load {path}: {reason}"
  | .recovery reason => s!"CFG recovery failed: {reason}"
  | .missingBlock a => s!"No block at {a.hex}"
  | .lift a reason => s!"IR lifting failed at {a.hex}: {reason}"

/-- A decoded machine instruction. -/
structure Instruction where
  address : Address
  mnemonic : String
  operands : String
  deriving DecidableEq

/-- A statement of intermediate code. A statement with a marker begins the code of the instruction
at that address. -/
structure Statement where
  marker : Option Address
  text : String
  deriving DecidableEq

/-- A basic block. -/
structure Block where
  size : UInt64
  /-- Instructions in the order decoded. -/
  instructions : List Instruction
  /-- The intermediate code, unless the lift failed. -/
  code : Except BinaryError (List Statement)

/-- A loaded binary whose engine has states of type `σ`. -/
structure Project (σ : Type) where
  info : BinaryInfo
  functions : List Function
  blocks : Std.ExtTreeMap Address Block
  graph : Graph
  engine : Except BinaryError (Engine σ)
  /-- Why an address has no block, where it has none. -/
  blockError : Address → BinaryError := .missingBlock

/-- The block at an address. -/
def Project.block {σ : Type} (p : Project σ) (a : Address) : Except BinaryError Block :=
  match p.blocks[a]? with
  | some b => .ok b
  | none => .error (p.blockError a)

end SymbolicPaths
