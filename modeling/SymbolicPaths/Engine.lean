import SymbolicPaths.Graph

/-!
# Symbolic engines

An `Engine σ` executes basic blocks symbolically over states of type `σ`. What the analyses need to
see of a state is given by `SymbolicState σ`. Engines are pure: a step and a solver query are
functions of the state.

`Graph.walker` is the engine that follows control flow only and tracks no symbolic values.
-/

namespace SymbolicPaths

/-- The identity of a symbolic value in the solving context. -/
inductive VariableKey where
  /-- Return value or argument of an external call. -/
  | api (name : String)
  /-- A processor register, by its offset in the register file. -/
  | register (offset : UInt64)
  /-- A memory cell. -/
  | memory (address : Address)
  /-- A file or stream. -/
  | file (name : String)
  /-- Anything that the engine tags otherwise. -/
  | other (tag name : String)
  deriving DecidableEq

/-- A symbolic value and its width. -/
structure Variable where
  key : VariableKey
  bits : UInt32
  deriving DecidableEq

/-- Why an engine could not go on. -/
inductive EngineError where
  /-- No state can be made at this address. -/
  | invalidEntry (address : Address)
  /-- Executing the block at this address failed. -/
  | step (address : Address) (reason : String)
  /-- The solver gave no answer. -/
  | solver (reason : String)
  deriving DecidableEq

/-- The text of an engine error. -/
def EngineError.message : EngineError → String
  | .invalidEntry a => "Cannot create state at " ++ a.hex
  | .step a reason => s!"Step failed at {a.hex}: {reason}"
  | .solver reason => s!"Solver query failed: {reason}"

/-- What is visible of a symbolic state. -/
class SymbolicState (σ : Type) where
  /-- Address of the block to execute next. -/
  address : σ → Address
  /-- Addresses of the blocks executed so far, oldest first. -/
  history : σ → List Address
  /-- Whether the state has left the explored code. -/
  halted : σ → Bool
  /-- The symbolic values that the state tracks. -/
  unknowns : σ → List Variable
  /-- Solves for the values of several variables at once. -/
  resolve : σ → List Variable → Except EngineError (List Nat)

/-- The walk of a state: where it has been, and where it is. -/
def SymbolicState.walk {σ : Type} [SymbolicState σ] (s : σ) : List Address :=
  history s ++ [address s]

/-- A symbolic engine over states of type `σ`. -/
structure Engine (σ : Type) where
  /-- A fresh state at the entry of a block. -/
  entry : Address → Except EngineError σ
  /-- Executes one block. No result means that the state has no successor. -/
  step : σ → Except EngineError (List σ)

/-- A state of the control-flow walker. -/
structure WalkState where
  address : Address
  history : List Address
  halted : Bool
  deriving DecidableEq

instance : SymbolicState WalkState where
  address := WalkState.address
  history := WalkState.history
  halted := WalkState.halted
  unknowns _ := []
  resolve _ wanted :=
    if wanted.isEmpty then .ok []
    else .error (.solver "control-flow walker tracks no symbolic values")

/-- Executes the block that a walk has reached: one state per successor, or a halted state at the
same address when there is none. -/
def Graph.walkStep (g : Graph) (s : WalkState) : List WalkState :=
  let history := s.history ++ [s.address]
  match g.successors s.address with
  | [] => [⟨s.address, history, true⟩]
  | targets => targets.map fun a => ⟨a, history, false⟩

/-- The engine that follows the edges of a graph. -/
def Graph.walker (g : Graph) : Engine WalkState where
  entry a := if g.contains a then .ok ⟨a, [], false⟩ else .error (.invalidEntry a)
  step s := .ok (g.walkStep s)

end SymbolicPaths
