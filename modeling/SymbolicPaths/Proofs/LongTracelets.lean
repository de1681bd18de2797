import SymbolicPaths.Proofs.ExplorerLaws
import SymbolicPaths.Proofs.StashDiscipline

/-!
# A long enough tracelet is a full run

A function that is its own only block has a single tracelet, and this starts where the full run
starts. Two different loops drive them. A run goes on until no state is active or the engine fails,
and what it finds are its dead ends. The rounds of a tracelet are counted; before each of them the
states at claimed addresses are stopped, and in the end the active and the stopped states are
recorded as well.

If the run stops within `n` rounds, then a tracelet of `n` or more rounds finds the same paths in
the same order or fails with the same error (`Explorer.explore_tracelet_eq_full`). While nothing is
claimed nothing is stopped, so that a round of the tracelet is a turn of the run
(`Explorer.outcome_traceletRounds_unclaimed`). Once the run is over, the rounds that are left change
nothing, and both loops end in the same way (`StopsWithin.outcome_traceletRounds`). A run that has
ended without an error has neither active nor stopped states, hence what the tracelet records are
the dead ends (`StopsWithin.recorded_run`).
-/

namespace SymbolicPaths

open SymbolicState

variable {σ : Type} [SymbolicState σ]

namespace Explorer

omit [SymbolicState σ] in
/-- How a run of `f` is reported: by its stashes, or by the error with which the engine has
failed. -/
def reported (f : Function) (r : Stashes σ × Option EngineError) :
    Except ExplorationError (Stashes σ) :=
  match r.2 with
  | some err => .error (.engine f.name err)
  | none => .ok r.1

variable {x : Explorer σ} {f : Function}

/-- A full exploration enters the function, runs to the end and evaluates the dead ends. -/
theorem outcome_exploreFull_eq_bind :
    outcome (x.exploreFull f) =
      outcome (x.enter f f.address) >>= fun m =>
        reported f (m.run x.engine x.loopBound).value >>= fun m =>
          m.deadended.mapM fun s => outcome (x.evaluate f s) := by
  cases hentry : x.engine.entry f.address with
  | error err =>
    rw [outcome_exploreFull_error hentry]
    simp only [enter, hentry]
    rfl
  | ok s =>
    rw [outcome_exploreFull hentry, outcome_enter_ok hentry, ok_bind, reported]
    dsimp only
    cases ((Stashes.start s).run x.engine x.loopBound).value.2 with
    | some err => rfl
    | none => rfl

/-! ### Rounds without claims -/

/-- **One round.** As long as nothing is claimed, a round of a tracelet is a turn of a run. -/
theorem outcome_traceletRounds_unclaimed (steps : Nat) (m : Stashes σ) :
    outcome (x.traceletRounds f ∅ (steps + 1) m) =
      if m.active.isEmpty then .ok m
      else reported f (m.step x.engine x.loopBound).value >>= fun m =>
        outcome (x.traceletRounds f ∅ steps m) := by
  -- no address is in the empty set, hence no state is stopped
  have hkept : (m.stopActive fun s => (∅ : AddressSet).contains (address s)) = m := by
    ext1 <;> simp [Stashes.stopActive]
  rw [outcome_traceletRounds_succ]
  simp only [hkept, reported, Stashes.next]
  split
  · rfl
  · cases (m.step x.engine x.loopBound).value.2 with
    | some err => rfl
    | none => rfl

end Explorer

namespace Stashes

variable {x : Explorer σ} {f : Function} {e : Engine σ} {l : LoopBound} {m : Stashes σ} {n : Nat}

/-- **All rounds.** If a run stops within `n` rounds, then `n` or more rounds without claims end as
the run does. -/
theorem StopsWithin.outcome_traceletRounds (h : StopsWithin x.engine x.loopBound n m) :
    ∀ steps, n ≤ steps →
      outcome (x.traceletRounds f ∅ steps m) =
        Explorer.reported f (m.run x.engine x.loopBound).value := by
  induction h with
  | idle hnone =>
    intro steps _
    rw [run_of_active_eq_nil hnone]
    -- however many rounds are left, none of them takes place
    cases steps with
    | zero => rfl
    | succ steps =>
      rw [Explorer.outcome_traceletRounds_unclaimed, hnone]
      rfl
  | fails herr =>
    intro steps hsteps
    obtain ⟨steps, rfl⟩ : ∃ k, steps = k + 1 := ⟨steps - 1, by omega⟩
    have hactive := active_ne_nil_of_error herr
    rw [run_of_error herr, Explorer.outcome_traceletRounds_unclaimed,
      if_neg (by simpa using hactive)]
    -- the error of this round is the error of the run, whatever comes after it
    unfold Explorer.reported
    rw [herr]
    rfl
  | @round k m hactive hok hstops ih =>
    intro steps hsteps
    obtain ⟨steps, rfl⟩ : ∃ k, steps = k + 1 := ⟨steps - 1, by omega⟩
    have hround : Explorer.reported f (m.step x.engine x.loopBound).value =
        .ok (m.next x.engine x.loopBound) := by
      rw [Explorer.reported, hok]
      rfl
    have hrun : (m.run x.engine x.loopBound).value =
        ((m.next x.engine x.loopBound).run x.engine x.loopBound).value := by
      rw [run_of_step hactive hok hstops]
      rfl
    rw [Explorer.outcome_traceletRounds_unclaimed, if_neg (by simpa using hactive), hround,
      ok_bind, hrun]
    exact ih steps (by omega)

/-- A run that has ended without an error has recorded its dead ends and nothing else. -/
theorem StopsWithin.recorded_run (h : StopsWithin e l n m) (hm : m.stopped = [])
    (hok : (m.run e l).value.2 = none) :
    (m.run e l).value.1.recorded = (m.run e l).value.1.deadended := by
  have hactive : (m.run e l).value.1.active = [] := by
    rcases h.run_ends.2 with ⟨-, hnone⟩ | ⟨err, -, herr, -⟩
    · exact hnone
    · rw [hok] at herr
      cases herr
  -- steps never stop a state
  have hstopped : (m.run e l).value.1.stopped = [] := by
    refine h.run_of_next (P := fun m => m.stopped = []) (fun m hm => ?_) hm
    rw [next, stopped_step, hm]
  rw [recorded, hactive, hstopped, List.nil_append, List.append_nil]

end Stashes

namespace Explorer

variable {x : Explorer σ} {f : Function}

/-- A function that is its own only block is explored by the tracelet from its address. -/
theorem explore_tracelet_of_blocks {steps : UInt64} {allowOverlap : Bool}
    (hmode : x.mode = .tracelet steps allowOverlap) (hblocks : f.blocks = [f.address]) :
    outcome (x.explore f) = outcome (x.traceletFrom f steps.toNat ∅ f.address) := by
  rw [explore_tracelet hmode, hblocks, outcome_tracelets_cons, if_neg (by simp)]
  cases outcome (x.traceletFrom f steps.toNat ∅ f.address) with
  | error err => rfl
  | ok paths =>
    rw [ok_bind, outcome_tracelets_nil, ok_bind, ok_bind, List.flatten_cons, List.flatten_nil,
      List.append_nil]

/-- The tracelet from the address of a function ends as the full exploration of the function does,
if it is long enough for the run to stop. -/
theorem outcome_traceletFrom_of_stops {n steps : Nat}
    (hstops : ∀ s, x.engine.entry f.address = .ok s →
      Stashes.StopsWithin x.engine x.loopBound n (.start s)) (hsteps : n ≤ steps) :
    outcome (x.traceletFrom f steps ∅ f.address) = outcome (x.exploreFull f) := by
  rw [outcome_traceletFrom, outcome_exploreFull_eq_bind]
  cases hentry : x.engine.entry f.address with
  | error err =>
    -- neither of the two can be entered
    simp only [enter, hentry]
    rfl
  | ok s =>
    have hrun := hstops s hentry
    rw [outcome_enter_ok hentry, ok_bind, ok_bind, hrun.outcome_traceletRounds steps hsteps]
    cases hok : ((Stashes.start s).run x.engine x.loopBound).value.2 with
    | some err => simp only [reported, hok]; rfl
    | none => simp only [reported, hok, ok_bind, hrun.recorded_run rfl hok]

/-- **A long enough tracelet is a full run.** Let a function have its own address as its only block,
and let the run from its entry stop within `n` rounds, with or without an error of the engine. Then
an exploration by tracelets of `n` or more rounds ends exactly as the full exploration does, whether
tracelets may overlap or not: with the same paths in the same order, or with the same error. -/
theorem explore_tracelet_eq_full (x : Explorer σ) (f : Function) (n : Nat) (steps : UInt64)
    (allowOverlap : Bool) (hblocks : f.blocks = [f.address])
    (hstops : ∀ s, x.engine.entry f.address = .ok s →
      Stashes.StopsWithin x.engine x.loopBound n (.start s))
    (hsteps : n ≤ steps.toNat) :
    outcome ({ x with mode := .tracelet steps allowOverlap }.explore f) =
      outcome ({ x with mode := .full }.explore f) := by
  let y : Explorer σ := { x with mode := .tracelet steps allowOverlap }
  let z : Explorer σ := { x with mode := .full }
  show outcome (y.explore f) = outcome (z.explore f)
  calc outcome (y.explore f)
      = outcome (y.traceletFrom f steps.toNat ∅ f.address) := explore_tracelet_of_blocks rfl hblocks
    _ = outcome (y.exploreFull f) := outcome_traceletFrom_of_stops (x := y) hstops hsteps
    -- the mode decides which driver is used and is not looked at again
    _ = outcome (z.explore f) := rfl

/-- A branch with two exits is run to its end in two rounds, and five rounds find the same two
paths. The brittle engine fails in its second round, and so does the tracelet. -/
theorem explore_tracelet_eq_full_samples :
    let fork := walker ((Graph.empty.addEdge 1 2).addEdge 1 3) [1] 0 ⟨∅, false⟩ .full true
    let brittle : Explorer WalkState :=
      ⟨Engine.brittle, .ofGraph Graph.empty [] 1, ⟨∅, false⟩, .full, true⟩
    let f : Function := ⟨1, "f", 0, [1], []⟩
    Stashes.StopsWithin fork.engine fork.loopBound 2 (.start ⟨1, [], false⟩) ∧
    outcome ({ fork with mode := .tracelet 5 false }.explore f) = outcome (fork.explore f) ∧
    outcome (fork.explore f) = .ok [⟨[], [], [1, 2]⟩, ⟨[], [], [1, 3]⟩] ∧
    Stashes.StopsWithin brittle.engine brittle.loopBound 2 (.start ⟨1, [], false⟩) ∧
    outcome ({ brittle with mode := .tracelet 2 true }.explore f) = outcome (brittle.explore f) ∧
    outcome (brittle.explore f) = .error (.engine "f" (.step 2 "unmapped")) := by
  intro fork brittle f
  have hfork : Stashes.StopsWithin fork.engine fork.loopBound 2 (.start ⟨1, [], false⟩) :=
    .round (by decide) (by decide +kernel) (.round (by decide +kernel) (by decide +kernel)
      (.idle (by decide +kernel)))
  have hfails : (((Stashes.start ⟨1, [], false⟩).next brittle.engine brittle.loopBound).step
      brittle.engine brittle.loopBound).value.2 = some (.step 2 "unmapped") := by
    decide
  have hbrittle : Stashes.StopsWithin brittle.engine brittle.loopBound 2 (.start ⟨1, [], false⟩) :=
    .round (by decide) (by decide) (.fails hfails)
  have hsame := explore_tracelet_eq_full fork f 2 5 false rfl
    (fun s hs => by obtain rfl := Except.ok.inj hs; exact hfork) (by decide)
  have hsame' := explore_tracelet_eq_full brittle f 2 2 true rfl
    (fun s hs => by obtain rfl := Except.ok.inj hs; exact hbrittle) (by decide)
  refine ⟨hfork, hsame, ?_, hbrittle, hsame', ?_⟩
  · refine hsame.symm.trans ?_
    decide +kernel
  · refine hsame'.symm.trans ?_
    decide +kernel

end Explorer

end SymbolicPaths
