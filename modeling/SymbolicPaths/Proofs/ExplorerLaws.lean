import SymbolicPaths.Exploration
import SymbolicPaths.Proofs.EvaluationLaws
import SymbolicPaths.Proofs.Rounds

/-!
# Laws of the explorer

How explorations end, in terms of runs and rounds alone: one equation for each function of the
explorer, without the journal.
-/

namespace SymbolicPaths

open SymbolicState

namespace Explorer

variable {σ : Type} [SymbolicState σ] {x : Explorer σ} {f : Function}

omit [SymbolicState σ] in
theorem outcome_enter_ok {start : Address} {s : σ} (h : x.engine.entry start = .ok s) :
    outcome (x.enter f start) = .ok (.start s) := by
  simp only [enter, h]
  rfl

omit [SymbolicState σ] in
/-- A run that is entered starts at an entry state of the engine. -/
theorem exists_entry_of_enter {start : Address} {m : Stashes σ}
    (h : outcome (x.enter f start) = .ok m) :
    ∃ s, x.engine.entry start = .ok s ∧ m = .start s := by
  cases hentry : x.engine.entry start with
  | error err =>
    simp only [enter, hentry] at h
    cases h
  | ok s =>
    rw [outcome_enter_ok hentry] at h
    exact ⟨s, rfl, (Except.ok.inj h).symm⟩

theorem outcome_evaluate (s : σ) :
    outcome (x.evaluate f s) = (outcome (x.evaluator.evaluate s)).mapError (.evaluation f.name) :=
  rfl

/-- The path of a state has the history of the state. -/
theorem history_of_evaluate {s : σ} {p : ExecutionPath} (h : outcome (x.evaluate f s) = .ok p) :
    p.history = history s := by
  rw [outcome_evaluate, mapError_eq_ok_iff] at h
  exact Evaluator.history_of_evaluate h

/-- A full exploration gives the paths of the dead ends, unless the engine fails. -/
theorem outcome_exploreFull {s : σ} (hentry : x.engine.entry f.address = .ok s) :
    outcome (x.exploreFull f) =
      let r := (Stashes.start s).run x.engine x.loopBound
      match r.value.2 with
      | some err => .error (.engine f.name err)
      | none => r.value.1.deadended.mapM fun s => outcome (x.evaluate f s) := by
  unfold exploreFull
  simp only [outcome_bind, outcome_enter_ok hentry, outcome_liftM, ok_bind]
  -- a run that has failed is over before anything is evaluated
  obtain ⟨⟨m, err⟩, events⟩ := (Stashes.start s).run x.engine x.loopBound
  cases err with
  | some err => rfl
  | none => simp only [outcome_bind, outcome_liftM, ok_bind, outcome_mapM]

theorem outcome_exploreFull_error {err : EngineError}
    (hentry : x.engine.entry f.address = .error err) :
    outcome (x.exploreFull f) = .error (.engine f.name err) := by
  simp only [exploreFull, enter, hentry]
  rfl

/-- A full exploration succeeds if the engine can enter the function, its run ends without an error,
and all dead ends can be evaluated. -/
theorem exploreFull_eq_ok_iff {paths : List ExecutionPath} :
    outcome (x.exploreFull f) = .ok paths ↔
      ∃ s, x.engine.entry f.address = .ok s ∧
        ((Stashes.start s).run x.engine x.loopBound).value.2 = none ∧
        (((Stashes.start s).run x.engine x.loopBound).value.1.deadended.mapM
          fun s => outcome (x.evaluate f s)) = .ok paths := by
  cases hentry : x.engine.entry f.address with
  | error err =>
    rw [outcome_exploreFull_error hentry]
    simp
  | ok s =>
    rw [outcome_exploreFull hentry]
    dsimp only
    cases herr : ((Stashes.start s).run x.engine x.loopBound).value.2 with
    | some err => simp [herr]
    | none => simp [herr]

/-- The exploration of a function comes to an end. Only a full exploration could go on forever: the
rounds of a tracelet are counted. -/
def Terminates (x : Explorer σ) (f : Function) : Prop :=
  x.mode = .full → ∀ s, x.engine.entry f.address = .ok s →
    ∃ n, Stashes.StopsWithin x.engine x.loopBound n (.start s)

/-- Explores by the control-flow walker, under a loop bound made from the same graph. -/
def walker (g : Graph) (roots : List Address) (bound : UInt32) (evaluator : Evaluator)
    (mode : ExplorationMode) (strict : Bool) : Explorer WalkState where
  engine := g.walker
  loopBound := .ofGraph g roots bound
  evaluator := evaluator
  mode := mode
  strict := strict

@[simp] theorem outcome_traceletRounds_zero (claimed : AddressSet) (m : Stashes σ) :
    outcome (x.traceletRounds f claimed 0 m) = .ok m :=
  rfl

/-- One round of a tracelet. The active states at claimed addresses are stopped first, and the
rounds are over if no other is left. -/
theorem outcome_traceletRounds_succ (claimed : AddressSet) (steps : Nat) (m : Stashes σ) :
    outcome (x.traceletRounds f claimed (steps + 1) m) =
      let kept := m.stopActive fun s => claimed.contains (address s)
      if kept.active.isEmpty then .ok kept
      else match (kept.step x.engine x.loopBound).value.2 with
        | some err => .error (.engine f.name err)
        | none => outcome (x.traceletRounds f claimed steps (kept.next x.engine x.loopBound)) := by
  simp only [traceletRounds]
  split
  · rfl
  · rw [outcome_bind, outcome_liftM, ok_bind, Stashes.next]
    obtain ⟨⟨m, err⟩, events⟩ := Stashes.step x.engine x.loopBound (m.stopActive _)
    cases err with
    | some err => rfl
    | none => rfl

/-- The rounds of a tracelet evaluate nothing: they depend on the engine and on the loop bound
alone. -/
theorem outcome_traceletRounds_congr {y : Explorer σ} (hengine : x.engine = y.engine)
    (hbound : x.loopBound = y.loopBound) (claimed : AddressSet) (steps : Nat) (m : Stashes σ) :
    outcome (x.traceletRounds f claimed steps m) =
      outcome (y.traceletRounds f claimed steps m) := by
  induction steps generalizing m with
  | zero => rfl
  | succ steps ih =>
    rw [outcome_traceletRounds_succ, outcome_traceletRounds_succ, hengine, hbound]
    simp only [ih]

/-- What one round keeps, with the stopping of claimed states that comes before it, is kept by all
rounds of a tracelet. -/
theorem of_traceletRounds {P : Stashes σ → Prop} {claimed : AddressSet} {steps : Nat}
    {m m' : Stashes σ}
    (hround : ∀ m, P m → P (m.stopActive fun s => claimed.contains (address s)) ∧
      P ((m.stopActive fun s => claimed.contains (address s)).next x.engine x.loopBound))
    (hm : P m) (h : outcome (x.traceletRounds f claimed steps m) = .ok m') : P m' := by
  induction steps generalizing m with
  | zero =>
    rw [outcome_traceletRounds_zero] at h
    exact Except.ok.inj h ▸ hm
  | succ steps ih =>
    rw [outcome_traceletRounds_succ] at h
    dsimp only at h
    obtain ⟨hkept, hnext⟩ := hround m hm
    split at h
    · -- no state is left to go on
      exact Except.ok.inj h ▸ hkept
    · split at h
      · cases h
      · exact ih hnext h

theorem outcome_traceletFrom (steps : Nat) (claimed : AddressSet) (start : Address) :
    outcome (x.traceletFrom f steps claimed start) =
      outcome (x.enter f start) >>= fun m =>
        outcome (x.traceletRounds f claimed steps m) >>= fun m =>
          m.recorded.mapM fun s => outcome (x.evaluate f s) := by
  simp only [traceletFrom, outcome_bind, outcome_mapM]

@[simp] theorem outcome_tracelets_nil (steps : Nat) (allowOverlap : Bool) (claimed : AddressSet) :
    outcome (x.tracelets f steps allowOverlap claimed []) = .ok [] :=
  rfl

/-- The tracelets of one start, then those of the later ones under the claims that it leaves. -/
theorem outcome_tracelets_cons (steps : Nat) (allowOverlap : Bool) (claimed : AddressSet)
    (start : Address) (starts : List Address) :
    outcome (x.tracelets f steps allowOverlap claimed (start :: starts)) =
      (if claimed.contains start then .ok []
        else outcome (x.traceletFrom f steps claimed start)) >>= fun paths =>
          outcome (x.tracelets f steps allowOverlap (if allowOverlap then claimed
            else claimed.insertMany (paths.flatMap (·.history))) starts) >>= fun later =>
              .ok (paths :: later) := by
  simp only [tracelets]
  split <;> simp only [outcome_bind, outcome_pure]

/-- Exploring by tracelets forgets which start a path is from. -/
theorem explore_tracelet {steps : UInt64} {allowOverlap : Bool}
    (hmode : x.mode = .tracelet steps allowOverlap) :
    outcome (x.explore f) =
      outcome (x.tracelets f steps.toNat allowOverlap ∅ f.blocks) >>= fun groups =>
        .ok groups.flatten := by
  simp only [explore, hmode, exploreTracelets, outcome_bind, outcome_pure]

end Explorer

end SymbolicPaths
