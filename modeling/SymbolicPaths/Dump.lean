import SymbolicPaths.Options

/-!
# Dumping a binary

Extracts and explores the chosen functions of a project, one after the other, and puts the records
together into an artifact.
-/

namespace SymbolicPaths

/-- Why a dump failed. -/
inductive DumpError where
  /-- The binary is at fault. -/
  | binary (error : BinaryError)
  /-- An exploration failed and was not recovered from. -/
  | exploration (error : ExplorationError)
  deriving DecidableEq

/-- The text of a dump error. -/
def DumpError.message : DumpError → String
  | .binary e => e.message
  | .exploration e => e.message

namespace Project

variable {σ : Type} [SymbolicState σ]

/-- The loop bound for a project: its search starts at the functions. -/
def loopBound (p : Project σ) (o : Options) : LoopBound :=
  .ofGraph p.graph (p.functions.map (·.address)) o.loopBound

/-- The explorer that the options ask for. -/
def explorer (p : Project σ) (o : Options) (e : Engine σ) : Explorer σ where
  engine := e
  loopBound := p.loopBound o
  evaluator := {
    excluded := o.exclusionTable.offsetsFor p.info.architecture.name
    strict := o.strict }
  mode := o.mode
  strict := o.strict

/-- The record of one function with its paths, and the records of its blocks. -/
def dumpFunction (p : Project σ) (x : Explorer σ) (f : Function) :
    ExceptT DumpError Journaled (FunctionRecord × List BlockRecord) := do
  let (record, blocks) ← (p.extract f).adapt .binary
  let paths ← (x.exploreOrRecover f).adapt .exploration
  Journaled.log .debug s!"{f.name}: {record.blockCount.toNat} blocks, {paths.length} paths"
  return ({ record with paths }, blocks)

/-- The artifact of a project. -/
def dump (p : Project σ) (o : Options) : ExceptT DumpError Journaled Artifact := do
  let selected := selectFunctions p.functions o.functions
  let engine ← (liftM p.engine : ExceptT BinaryError Journaled _).adapt .binary
  Journaled.log .info s!"Dumping {selected.length} functions ({o.mode.describe})"
  let records ← selected.mapM (p.dumpFunction (p.explorer o engine))
  return ⟨p.info, records.map (·.1), records.flatMap (·.2)⟩

end Project

end SymbolicPaths
