import SymbolicPaths.Engine
import SymbolicPaths.Journal
import SymbolicPaths.LoopBound

/-!
# Simulation

A simulation keeps the states of one symbolic run in four stashes. A round executes one block of
every active state and sorts the successors: halted states are dead ends, states beyond the loop
bound spin, the others stay active. Rounds go on after an engine error too, from whatever the failed
round left.

`Stashes.round` is stated over what a round adds, so that a round that fails at some state leaves
exactly what a round over the states before it adds. `Stashes.run` is a loop without a limit: an
engine that goes on forever keeps it going forever.
-/

namespace SymbolicPaths

/-- The states of a run, by what has become of them. -/
structure Stashes (σ : Type) where
  /-- States to execute in the next round. -/
  active : List σ := []
  /-- States that halted or had no successor. -/
  deadended : List σ := []
  /-- States beyond the loop bound. -/
  spinning : List σ := []
  /-- States taken out of the run before their next block. -/
  stopped : List σ := []
  deriving DecidableEq

namespace Stashes

open SymbolicState

variable {σ : Type}

/-- Appends the states of `t` stash by stash. -/
def append (s t : Stashes σ) : Stashes σ where
  active := s.active ++ t.active
  deadended := s.deadended ++ t.deadended
  spinning := s.spinning ++ t.spinning
  stopped := s.stopped ++ t.stopped

instance : Append (Stashes σ) := ⟨append⟩

/-- A run that has not begun: its entry state is active. -/
def start (entry : σ) : Stashes σ where
  active := [entry]

variable [SymbolicState σ]

/-- Puts a successor where it belongs. -/
def sort (l : LoopBound) (s : σ) : Journaled (Stashes σ) :=
  if halted s then pure { deadended := [s] }
  else if l.isSpinning (walk s) then do
    .log .trace s!"Loop bound reached at {(address s).hex}"
    pure { spinning := [s] }
  else pure { active := [s] }

/-- Puts several successors where they belong. -/
def sortAll (l : LoopBound) : List σ → Journaled (Stashes σ)
  | [] => pure {}
  | s :: rest => do
    let here ← sort l s
    let later ← sortAll l rest
    pure (here ++ later)

/-- What a round over the given states adds to the stashes, and the engine error that ended it
early. -/
def round (e : Engine σ) (l : LoopBound) : List σ → Journaled (Stashes σ × Option EngineError)
  | [] => pure ({}, none)
  | s :: rest => do
    .note (.stepped (address s))
    match e.step s with
    | .error err => pure ({}, some err)
    | .ok successors =>
      let here ← if successors.isEmpty then pure { deadended := [s] } else sortAll l successors
      let (later, err) ← round e l rest
      pure (here ++ later, err)

/-- Executes one block of every active state. -/
def step (e : Engine σ) (l : LoopBound) (s : Stashes σ) :
    Journaled (Stashes σ × Option EngineError) := do
  let (added, err) ← round e l s.active
  pure ({ s with active := [] } ++ added, err)

/-- One turn of a run: a round, unless the run is over because no state is active. After an engine
error it is over as well. -/
def turn (e : Engine σ) (l : LoopBound) (s : Journaled (Stashes σ)) :
    Journaled (Stashes σ) ⊕ Journaled (Stashes σ × Option EngineError) :=
  if s.value.active.isEmpty then .inr ((·, none) <$> s)
  else
    let next := s >>= step e l
    match next.value.2 with
    | some _ => .inr next
    | none => .inl (Prod.fst <$> next)

/-- Turns until the run is over. -/
def proceed (e : Engine σ) (l : LoopBound) (s : Journaled (Stashes σ)) :
    Journaled (Stashes σ × Option EngineError) :=
  have : Nonempty (Journaled (Stashes σ × Option EngineError)) := ⟨(·, none) <$> s⟩
  Id.run (repeatM (turn e l) s)

/-- Rounds until no state is active or the engine fails. -/
def run (e : Engine σ) (l : LoopBound) (s : Stashes σ) :
    Journaled (Stashes σ × Option EngineError) :=
  proceed e l (pure s)

/-- Moves the active states that `p` picks to the stopped ones. -/
def stopActive (p : σ → Bool) (s : Stashes σ) : Stashes σ :=
  { s with
    active := s.active.filter fun a => !p a
    stopped := s.stopped ++ s.active.filter p }

/-- The states that a run cut short is about: all but the spinning ones. -/
def recorded (s : Stashes σ) : List σ :=
  s.active ++ s.deadended ++ s.stopped

end Stashes

end SymbolicPaths
