import SymbolicPaths.Engine
import SymbolicPaths.Exclusion
import SymbolicPaths.Journal
import SymbolicPaths.Records
import SymbolicPaths.Value

/-!
# Evaluating states

Turns a symbolic state into an execution path: names its variables, solves for their values with one
query, and shows the values as text. Registers that are structure rather than input are left out.
A value that does not fit its variable is an error for a strict evaluator; a lenient one logs it and
leaves the value out.
-/

namespace SymbolicPaths

open SymbolicState

/-- Why a state could not be evaluated. -/
inductive EvaluationError where
  /-- The solver query failed. -/
  | query (error : EngineError)
  /-- A value does not fit its variable. -/
  | overflow (value : Overflow)
  deriving DecidableEq

/-- The text of an evaluation error. -/
def EvaluationError.message : EvaluationError → String
  | .query e => s!"Batch evaluation failed: {e.message}"
  | .overflow o => o.message

/-- The name under which a variable is recorded. -/
def VariableKey.name : VariableKey → String
  | .api name => name
  | .register offset => s!"reg_{offset.toNat}"
  | .memory a => s!"mem_{hexDigits a.toNat}"
  | .file name => name
  | .other _ name => name

/-- Whether a variable is kept: all but the excluded registers are. -/
def Variable.isKept (excluded : OffsetSet) (v : Variable) : Bool :=
  match v.key with
  | .register offset => !excluded.contains offset
  | _ => true

/-- Turns states into execution paths. -/
structure Evaluator where
  /-- The registers to leave out. -/
  excluded : OffsetSet
  /-- Whether a value that does not fit is an error. -/
  strict : Bool

namespace Evaluator

/-- The texts of the values of variables, one by one. Zero has no text. -/
def texts (e : Evaluator) : List (Variable × Nat) → ExceptT EvaluationError Journaled (List String)
  | [] => pure []
  | (v, value) :: rest => do
    let name := v.key.name
    match decodeValue name value v.bits with
    | .ok text => return text.toList ++ (← e.texts rest)
    | .error o =>
      if e.strict then throw (.overflow o)
      Journaled.log .error s!"Failed to evaluate variable {name}: {o.message}"
      e.texts rest

variable {σ : Type} [SymbolicState σ]

/-- The values of the given variables in a state, by one query if there is anything to ask. -/
def solve (s : σ) (wanted : List Variable) : ExceptT EvaluationError Journaled (List Nat) := do
  Journaled.log .trace s!"Resolving {wanted.length} variables at {(address s).hex}"
  if wanted.isEmpty then return []
  Journaled.note (.queried wanted.length)
  match resolve s wanted with
  | .ok values => return values
  | .error e => throw (.query e)

/-- The execution path of a state. -/
def evaluate (e : Evaluator) (s : σ) : ExceptT EvaluationError Journaled ExecutionPath := do
  let kept := (unknowns s).filter (·.isKept e.excluded)
  let values ← solve s kept
  return {
    unknowns := kept.map (·.key.name)
    values := ← e.texts (kept.zip values)
    history := history s }

end Evaluator

end SymbolicPaths
