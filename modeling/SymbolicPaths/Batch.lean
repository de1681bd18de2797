import SymbolicPaths.ArtifactFile
import SymbolicPaths.Dump
import SymbolicPaths.Loading

/-!
# Processing binaries

The artifact of a binary is stored beside it. A binary that already has an artifact is not processed
again. A batch processes each of its inputs once and reports what became of it; an input that fails
does not affect the others.
-/

namespace SymbolicPaths

/-- How binaries are loaded from files. -/
abbrev FileLoader (σ : Type) := Path → ExceptT BinaryError Script (Project σ)

/-- Loads a binary from its file. -/
def Loader.loadFile (l : Loader) : FileLoader WalkState := fun p => do
  match ← Script.read p with
  | .unopened .missing => throw (.missing p.text)
  | .unopened fault | .broken fault => throw (.load p.text fault.message)
  | .content bytes => ExceptT.mk (Script.ofJournaled (l.load p.text ⟨⟨bytes.toArray⟩⟩).run)

/-- What became of a binary. -/
inductive Outcome where
  /-- Its artifact was written to this path. -/
  | written (path : Path)
  /-- There was an artifact at this path. -/
  | cached (path : Path)
  deriving DecidableEq

/-- Why a binary could not be processed. -/
inductive ProcessingError where
  | dump (error : DumpError)
  | artifact (error : ArtifactError)
  deriving DecidableEq

/-- The text of a processing error. -/
def ProcessingError.message : ProcessingError → String
  | .dump e => e.message
  | .artifact e => e.message

/-- What became of the inputs of a batch. -/
structure BatchReport where
  /-- Artifacts that were written. -/
  written : List Path := []
  /-- Artifacts that were there before. -/
  cached : List Path := []
  /-- Inputs that failed, and why. -/
  failed : List (Path × String) := []
  deriving DecidableEq

namespace BatchReport

/-- Whether no input failed. -/
def isSuccess (r : BatchReport) : Bool :=
  r.failed.isEmpty

/-- Number of inputs. -/
def total (r : BatchReport) : Nat :=
  r.written.length + r.cached.length + r.failed.length

/-- Enters what became of an input. -/
def add (r : BatchReport) (input : Path) : Except ProcessingError Outcome → BatchReport
  | .ok (.written path) => { r with written := r.written ++ [path] }
  | .ok (.cached path) => { r with cached := r.cached ++ [path] }
  | .error e => { r with failed := r.failed ++ [(input, e.message)] }

/-- The report on inputs, in order. -/
def ofResults (results : List (Path × Except ProcessingError Outcome)) : BatchReport :=
  results.foldl (fun r (input, result) => r.add input result) {}

end BatchReport

section

variable {σ : Type} [SymbolicState σ]

/-- Goes on with a binary when it is known whether it has an artifact. -/
def resume (z : Gzip.Compressor) (load : FileLoader σ) (o : Options) (input : Path)
    (found : Except FileFault FileKind) : ExceptT ProcessingError Script Outcome := do
  let output := input.artifact
  if found.isOk then
    Script.log .debug s!"Skipping {input.text}: {output.text} exists"
    return .cached output
  Script.report (.loaded input.text)
  let project ← (load input).adapt fun e => .dump (.binary e)
  let artifact ← (ExceptT.mk (Script.ofJournaled (project.dump o).run)).adapt .dump
  (artifact.writeTo z output).adapt .artifact
  Script.log .info s!"Wrote {output.text}"
  return .written output

/-- Processes a binary, unless it has an artifact. -/
def processFile (z : Gzip.Compressor) (load : FileLoader σ) (o : Options) (input : Path) :
    ExceptT ProcessingError Script Outcome := do
  resume z load o input (← Script.status input.artifact)

/-- Logs that an input failed. -/
def logFailure (input : Path) : Except ProcessingError Outcome → Script Unit
  | .ok _ => return
  | .error e => Script.log .error s!"Failed to process {input.text}: {e.message}"

/-- Processes inputs one after the other. -/
def processInOrder (z : Gzip.Compressor) (load : FileLoader σ) (o : Options) (inputs : List Path) :
    Script (List (Path × Except ProcessingError Outcome)) :=
  inputs.mapM fun input => do return (input, ← (processFile z load o input).run)

/-- Processes inputs by more than one worker: while one of them processes all inputs but the last
one, another one has begun with that. -/
def processAtOnce (z : Gzip.Compressor) (load : FileLoader σ) (o : Options) (inputs : List Path) :
    Script (List (Path × Except ProcessingError Outcome)) := do
  match inputs.getLast? with
  | none => return []
  | some last =>
    let found ← Script.status last.artifact
    let results ← processInOrder z load o inputs.dropLast
    return results ++ [(last, ← (resume z load o last found).run)]

/-- Processes inputs by as many workers as the options ask for. Unless that is one, there are
several, and this is one of the orders in which they can take turns. -/
def processEach (z : Gzip.Compressor) (load : FileLoader σ) (o : Options) (inputs : List Path) :
    Script (List (Path × Except ProcessingError Outcome)) :=
  if o.jobs = some 1 then processInOrder z load o inputs else processAtOnce z load o inputs

/-- Processes each input once. -/
def processAll (z : Gzip.Compressor) (load : FileLoader σ) (o : Options) (inputs : List Path) :
    Script BatchReport := do
  let results ← processEach z load o (Path.distinct inputs)
  results.forM fun (input, result) => logFailure input result
  return .ofResults results

end

end SymbolicPaths
