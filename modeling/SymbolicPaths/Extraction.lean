import SymbolicPaths.Project

/-!
# Extracting records

The static part of an artifact: which functions are kept, and the records of functions and blocks.
The instructions of a block are ordered by address, the last one decoded at an address counts, and
each carries the intermediate code that belongs to it.
-/

namespace SymbolicPaths

/-- A set of names, listed in ascending order. -/
abbrev NameSet := Std.ExtTreeSet String

/-- The functions whose names are in the filter, in order. Without a filter all are kept. -/
def selectFunctions (functions : List Function) (filter : Option NameSet) : List Function :=
  match filter with
  | some names => functions.filter fun f => names.contains f.name
  | none => functions

/-- The record of a function, before exploration. -/
def Function.record (f : Function) : FunctionRecord where
  address := f.address
  name := f.name
  blockCount := .ofNat f.blocks.length
  size := f.size
  blocks := f.blocks
  endpoints := f.endpoints
  paths := []

/-- Instructions by address. -/
abbrev InstructionMap := Std.ExtTreeMap Address InstructionRecord

namespace InstructionMap

/-- The instructions of a block, without intermediate code. At each address the last one counts. -/
def ofInstructions (instructions : List Instruction) : InstructionMap :=
  instructions.foldl (fun m i => m.insert i.address ⟨i.address, i.mnemonic, i.operands, []⟩) ∅

/-- Adds a fragment to the instruction at an address, if there is one. -/
def addFragment (m : InstructionMap) (a : Address) (text : String) : InstructionMap :=
  m.modify a fun i => { i with fragments := i.fragments ++ [text] }

/-- Adds each statement to the instruction of the last marker at or before it. `current` is the
marker in force. Statements without marker, or whose marker belongs to no instruction, are
dropped. -/
def attachFrom (current : Option Address) (m : InstructionMap) : List Statement → InstructionMap
  | [] => m
  | s :: rest =>
    match s.marker.or current with
    | some a => attachFrom (some a) (m.addFragment a s.text) rest
    | none => attachFrom none m rest

/-- Joins intermediate code to the instructions it was lifted from. -/
def attach (m : InstructionMap) (code : List Statement) : InstructionMap :=
  m.attachFrom none code

end InstructionMap

/-- The record of the block at address `a` of a function. A block whose lift failed keeps its bare
instructions. -/
def Block.record (b : Block) (a function : Address) : Journaled BlockRecord := do
  let instructions := InstructionMap.ofInstructions b.instructions
  let instructions ←
    match b.code with
    | .ok code => pure (instructions.attach code)
    | .error e => do
      .log .debug s!"Keeping block {a.hex} without IR: {e.message}"
      pure instructions
  return ⟨a, function, b.size, instructions.values⟩

/-- The records of a function and of its blocks. A missing block means that the recovered control
flow is inconsistent. -/
def Project.extract {σ : Type} (p : Project σ) (f : Function) :
    ExceptT BinaryError Journaled (FunctionRecord × List BlockRecord) := do
  let blocks ← f.blocks.mapM fun a => do
    let b ← p.block a
    b.record a f.address
  return (f.record, blocks)

end SymbolicPaths
