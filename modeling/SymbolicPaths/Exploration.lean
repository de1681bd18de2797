import SymbolicPaths.Evaluation
import SymbolicPaths.Simulation

/-!
# Exploring functions

A function is explored either as a whole, by one run from its entry, or in tracelets: short runs of
a fixed number of rounds from each of its blocks. Unless tracelets may overlap, a block that some
recorded path has passed is claimed: no later tracelet starts there or goes through it.

An exploration that fails is an error for a strict explorer; a lenient one logs it and records no
path for the function.
-/

namespace SymbolicPaths

open SymbolicState

/-- How functions are explored. -/
inductive ExplorationMode where
  /-- One run from the entry of the function. -/
  | full
  /-- A run of `steps` rounds from every block. -/
  | tracelet (steps : UInt64) (allowOverlap : Bool)
  deriving DecidableEq

namespace ExplorationMode

/-- A negative tracelet length stands for full exploration. -/
def ofTracelet (tracelet : Int64) (allowOverlap : Bool) : ExplorationMode :=
  if tracelet < 0 then .full else .tracelet tracelet.toUInt64 allowOverlap

/-- The mode as it appears in messages. -/
def describe : ExplorationMode → String
  | .full => "Full"
  | .tracelet steps allowOverlap =>
    s!"Tracelet \x7b steps: {steps.toNat}, allow_overlap: {allowOverlap} \x7d"

end ExplorationMode

/-- A function of a binary, as control-flow recovery reports it. -/
structure Function where
  address : Address
  name : String
  size : UInt64
  /-- Block addresses in recovery order. -/
  blocks : List Address
  /-- The blocks without successor. -/
  endpoints : List Address
  deriving DecidableEq

/-- Why a function could not be explored. -/
inductive ExplorationError where
  /-- The engine failed. -/
  | engine (function : String) (error : EngineError)
  /-- A state could not be evaluated. -/
  | evaluation (function : String) (error : EvaluationError)
  deriving DecidableEq

/-- The text of an exploration error. -/
def ExplorationError.message : ExplorationError → String
  | .engine function e => s!"Exploration of {function} failed: {e.message}"
  | .evaluation function e => s!"Evaluation in {function} failed: {e.message}"

/-- Explores the functions of one binary. -/
structure Explorer (σ : Type) where
  engine : Engine σ
  loopBound : LoopBound
  evaluator : Evaluator
  mode : ExplorationMode
  /-- Whether a failed exploration is an error. -/
  strict : Bool

namespace Explorer

variable {σ : Type} [SymbolicState σ]

/-- Explorations report what they do, and may fail. -/
abbrev Exploring := ExceptT ExplorationError Journaled

/-- A run from the entry of a block of `f`. -/
def enter (x : Explorer σ) (f : Function) (start : Address) : Exploring (Stashes σ) :=
  match x.engine.entry start with
  | .error e => throw (.engine f.name e)
  | .ok s => do
    Journaled.note (.entered start)
    return .start s

/-- The path of a state of `f`. -/
def evaluate (x : Explorer σ) (f : Function) (s : σ) : Exploring ExecutionPath :=
  (x.evaluator.evaluate s).adapt (.evaluation f.name)

/-- Explores a function by one run from its entry. The paths are those of the dead ends. -/
def exploreFull (x : Explorer σ) (f : Function) : Exploring (List ExecutionPath) := do
  let start ← x.enter f f.address
  Journaled.log .debug s!"Running {f.name} from {f.address.hex}"
  match ← (start.run x.engine x.loopBound : Journaled _) with
  | (_, some e) => throw (.engine f.name e)
  | (s, none) =>
    Journaled.log .debug
      s!"{f.name}: {s.deadended.length} deadended, {s.spinning.length} spinning"
    s.deadended.mapM (x.evaluate f)

/-- Several rounds of a tracelet of `f`. Active states at a claimed address are stopped before each
round, and a round without active states changes nothing, so that the rounds end with it. -/
def traceletRounds (x : Explorer σ) (f : Function) (claimed : AddressSet) :
    (steps : Nat) → Stashes σ → Exploring (Stashes σ)
  | 0, s => return s
  | steps + 1, s => do
    let s := s.stopActive fun a => claimed.contains (address a)
    if s.active.isEmpty then return s
    match ← (s.step x.engine x.loopBound : Journaled _) with
    | (_, some e) => throw (.engine f.name e)
    | (s, none) => x.traceletRounds f claimed steps s

/-- The paths of the tracelet of `f` that starts at a block: those of its active, dead-ended and
stopped states. -/
def traceletFrom (x : Explorer σ) (f : Function) (steps : Nat) (claimed : AddressSet)
    (start : Address) : Exploring (List ExecutionPath) := do
  let s ← x.traceletRounds f claimed steps (← x.enter f start)
  s.recorded.mapM (x.evaluate f)

/-- The paths of the tracelets that start at the given blocks, one list for each start. A claimed
start has none. With overlap nothing is ever claimed. -/
def tracelets (x : Explorer σ) (f : Function) (steps : Nat) (allowOverlap : Bool) :
    (claimed : AddressSet) → (starts : List Address) → Exploring (List (List ExecutionPath))
  | _, [] => return []
  | claimed, start :: starts => do
    let paths ← if claimed.contains start then pure [] else x.traceletFrom f steps claimed start
    let claimed := if allowOverlap then claimed else claimed.insertMany (paths.flatMap (·.history))
    return paths :: (← x.tracelets f steps allowOverlap claimed starts)

/-- Explores a function by tracelets from its blocks. -/
def exploreTracelets (x : Explorer σ) (f : Function) (steps : Nat) (allowOverlap : Bool) :
    Exploring (List ExecutionPath) :=
  return (← x.tracelets f steps allowOverlap ∅ f.blocks).flatten

/-- The paths of a function. -/
def explore (x : Explorer σ) (f : Function) : Exploring (List ExecutionPath) :=
  match x.mode with
  | .full => x.exploreFull f
  | .tracelet steps allowOverlap => x.exploreTracelets f steps.toNat allowOverlap

/-- The paths of a function. A lenient explorer logs a failure and finds no path. -/
def exploreOrRecover (x : Explorer σ) (f : Function) : Exploring (List ExecutionPath) :=
  tryCatch (x.explore f) fun e => do
    if x.strict then throw e
    Journaled.log .error e.message
    return []

end Explorer

end SymbolicPaths
