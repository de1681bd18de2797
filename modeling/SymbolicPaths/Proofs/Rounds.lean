import Mathlib.Data.List.Basic
import SymbolicPaths.Simulation

/-!
# What rounds do to the stashes

The stashes after a round, without the journal. `Stashes.added` is what one state contributes, and a
round collects these contributions until the engine fails (`round_cons_ok`, `round_cons_error`).
Where a state of a stash can come from is then a matter of membership: an active state is a
successor of an active one that goes on (`mem_active_step`), a dead end was there before, or halted,
or had no successor (`mem_deadended_step`), and a round stops nothing (`stopped_step`).

A run is a loop without a limit, and `Stashes.StopsWithin` says that it is over after a number of
rounds. Three equations characterise runs that stop, one for each way in which a run can go on
(`run_of_active_eq_nil`, `run_of_error`, `run_of_step`); nothing else unfolds `Stashes.run`.

Engines are arbitrary. What an argument needs of them is collected in `Engine.RecordsHistory`, the
law that histories are kept faithfully, and `Engine.Reachable`, the states that an engine can make.
`Stashes.Reached` are the stashes that rounds and stops can make of a run from an entry state.
-/

namespace SymbolicPaths

open SymbolicState

namespace Engine

variable {σ : Type} [SymbolicState σ]

/-- Entry states have been nowhere, and executing a block adds its address to the history. -/
structure RecordsHistory (e : Engine σ) : Prop where
  entry_history : ∀ a s, e.entry a = .ok s → history s = []
  step_history : ∀ s next, e.step s = .ok next → ∀ t ∈ next, history t = history s ++ [address s]

omit [SymbolicState σ] in
/-- The states that an engine can make. -/
inductive Reachable (e : Engine σ) : σ → Prop
  | entry {a : Address} {s : σ} : e.entry a = .ok s → Reachable e s
  | step {s t : σ} {next : List σ} : Reachable e s → e.step s = .ok next → t ∈ next → Reachable e t

theorem RecordsHistory.walk_entry {e : Engine σ} (he : e.RecordsHistory) {a : Address} {s : σ}
    (hs : e.entry a = .ok s) : walk s = [address s] := by
  rw [walk, he.entry_history a s hs, List.nil_append]

/-- The walk of a successor is the walk so far and one more address. -/
theorem RecordsHistory.walk_step {e : Engine σ} (he : e.RecordsHistory) {s t : σ} {next : List σ}
    (hs : e.step s = .ok next) (ht : t ∈ next) : walk t = walk s ++ [address t] := by
  rw [walk, he.step_history s next hs t ht, walk]

end Engine

attribute [ext] Stashes

namespace Stashes

variable {σ : Type}

@[simp] theorem active_append (s t : Stashes σ) : (s ++ t).active = s.active ++ t.active := rfl

@[simp] theorem deadended_append (s t : Stashes σ) :
    (s ++ t).deadended = s.deadended ++ t.deadended := rfl

@[simp] theorem spinning_append (s t : Stashes σ) :
    (s ++ t).spinning = s.spinning ++ t.spinning := rfl

@[simp] theorem stopped_append (s t : Stashes σ) : (s ++ t).stopped = s.stopped ++ t.stopped := rfl

variable [SymbolicState σ] {e : Engine σ} {l : LoopBound}

/-! ### One state -/

/-- Whether a successor stays active. -/
def goesOn (l : LoopBound) (s : σ) : Bool :=
  !halted s && !l.isSpinning (walk s)

/-- Several successors, each where it belongs. -/
def sorted (l : LoopBound) (next : List σ) : Stashes σ where
  active := next.filter (goesOn l)
  deadended := next.filter fun s => halted s
  spinning := next.filter fun s => !halted s && l.isSpinning (walk s)

theorem sort_value (l : LoopBound) (s : σ) : (sort l s).value = sorted l [s] := by
  unfold sort
  split
  · next h => simp [sorted, goesOn, h]
  · next h =>
    split
    · next hs => simp [sorted, goesOn, h, hs]
    · next hs => simp [sorted, goesOn, h, hs]

theorem sortAll_value (l : LoopBound) (next : List σ) : (sortAll l next).value = sorted l next := by
  induction next with
  | nil => rfl
  | cons s rest ih =>
    simp only [sortAll, Journaled.value_bind, Journaled.value_pure, sort_value, ih]
    ext1 <;> simp [sorted, ← List.filter_append]

/-- What a state with the given successors contributes to a round. -/
def added (l : LoopBound) (s : σ) (next : List σ) : Stashes σ :=
  if next.isEmpty then { deadended := [s] } else sorted l next

theorem mem_active_added {s t : σ} {next : List σ} :
    t ∈ (added l s next).active ↔ t ∈ next ∧ goesOn l t = true := by
  unfold added
  split
  · next h => simp [List.isEmpty_iff.mp h]
  · exact List.mem_filter

theorem mem_deadended_added {s t : σ} {next : List σ} :
    t ∈ (added l s next).deadended ↔ (next = [] ∧ t = s) ∨ (t ∈ next ∧ halted t = true) := by
  unfold added
  split
  · next h => simp [List.isEmpty_iff.mp h]
  · next h =>
    have hne : next ≠ [] := fun hn => h (List.isEmpty_iff.mpr hn)
    simp [sorted, hne]

@[simp] theorem stopped_added (s : σ) (next : List σ) : (added l s next).stopped = [] := by
  unfold added
  split <;> rfl

/-! ### One round -/

@[simp] theorem round_nil : (round e l []).value = ({}, none) := rfl

theorem round_cons_ok {s : σ} {rest next : List σ} (h : e.step s = .ok next) :
    (round e l (s :: rest)).value =
      (added l s next ++ (round e l rest).value.1, (round e l rest).value.2) := by
  simp only [round, h, Journaled.value_bind, added]
  split
  · rfl
  · rw [← sortAll_value]
    rfl

theorem round_cons_error {s : σ} {rest : List σ} {err : EngineError} (h : e.step s = .error err) :
    (round e l (s :: rest)).value = ({}, some err) := by
  simp only [round, h, Journaled.value_bind, Journaled.value_pure]

/-- Whatever a round adds to a stash, some state of the round has contributed it. -/
theorem exists_added_of_mem_round {stash : Stashes σ → List σ} {t : σ}
    (hempty : stash {} = []) (happend : ∀ m m', stash (m ++ m') = stash m ++ stash m')
    {ss : List σ} (ht : t ∈ stash (round e l ss).value.1) :
    ∃ s ∈ ss, ∃ next, e.step s = .ok next ∧ t ∈ stash (added l s next) := by
  induction ss with
  | nil =>
    rw [round_nil, hempty] at ht
    exact absurd ht List.not_mem_nil
  | cons s rest ih =>
    cases h : e.step s with
    | error err =>
      -- a round that fails at `s` keeps what was added before, and `s` adds nothing
      rw [round_cons_error h, hempty] at ht
      exact absurd ht List.not_mem_nil
    | ok next =>
      rw [round_cons_ok h, happend, List.mem_append] at ht
      rcases ht with ht | ht
      · exact ⟨s, List.mem_cons_self, next, h, ht⟩
      · obtain ⟨s', hs', more⟩ := ih ht
        exact ⟨s', List.mem_cons_of_mem _ hs', more⟩

/-- A round fails only if the engine fails at one of its states. -/
theorem exists_error_of_round {ss : List σ} {err : EngineError}
    (h : (round e l ss).value.2 = some err) : ∃ s ∈ ss, e.step s = .error err := by
  induction ss with
  | nil => simp at h
  | cons s rest ih =>
    cases hs : e.step s with
    | error err' =>
      rw [round_cons_error hs] at h
      exact ⟨s, List.mem_cons_self, by rw [hs, Option.some.inj h]⟩
    | ok next =>
      rw [round_cons_ok hs] at h
      obtain ⟨s', hs', herr⟩ := ih h
      exact ⟨s', List.mem_cons_of_mem _ hs', herr⟩

/-- A round in which the engine does not fail collects the contributions of all its states. -/
theorem round_of_ok {next : σ → List σ} {ss : List σ} (h : ∀ s ∈ ss, e.step s = .ok (next s)) :
    (round e l ss).value =
      ({ active := ss.flatMap fun s => (added l s (next s)).active
         deadended := ss.flatMap fun s => (added l s (next s)).deadended
         spinning := ss.flatMap fun s => (added l s (next s)).spinning }, none) := by
  induction ss with
  | nil => rfl
  | cons s rest ih =>
    rw [round_cons_ok (h s List.mem_cons_self), ih fun t ht => h t (List.mem_cons_of_mem _ ht)]
    refine Prod.ext ?_ rfl
    ext1 <;> simp

variable {m : Stashes σ}

theorem step_value (e : Engine σ) (l : LoopBound) (m : Stashes σ) :
    (m.step e l).value =
      ({ m with active := [] } ++ (round e l m.active).value.1, (round e l m.active).value.2) :=
  rfl

theorem mem_active_step {t : σ} (ht : t ∈ (m.step e l).value.1.active) :
    ∃ s ∈ m.active, ∃ next, e.step s = .ok next ∧ t ∈ next ∧ goesOn l t = true := by
  rw [step_value, active_append, List.nil_append] at ht
  obtain ⟨s, hs, next, hnext, ht⟩ := exists_added_of_mem_round rfl (fun _ _ => rfl) ht
  exact ⟨s, hs, next, hnext, mem_active_added.mp ht⟩

theorem mem_deadended_step {t : σ} (ht : t ∈ (m.step e l).value.1.deadended) :
    t ∈ m.deadended ∨ ∃ s ∈ m.active, ∃ next, e.step s = .ok next ∧
      ((next = [] ∧ t = s) ∨ (t ∈ next ∧ halted t = true)) := by
  rw [step_value, deadended_append, List.mem_append] at ht
  refine ht.imp_right fun ht => ?_
  obtain ⟨s, hs, next, hnext, ht⟩ := exists_added_of_mem_round rfl (fun _ _ => rfl) ht
  exact ⟨s, hs, next, hnext, mem_deadended_added.mp ht⟩

@[simp] theorem stopped_step : (m.step e l).value.1.stopped = m.stopped := by
  rw [step_value, stopped_append]
  -- nothing that a state contributes is stopped
  refine List.append_right_eq_self.mpr (List.eq_nil_iff_forall_not_mem.mpr fun t ht => ?_)
  obtain ⟨s, -, next, -, ht⟩ := exists_added_of_mem_round rfl (fun _ _ => rfl) ht
  rw [stopped_added] at ht
  exact absurd ht List.not_mem_nil

/-! ### Runs -/

/-- The stashes after a round, whether or not the engine has failed in it. -/
def next (e : Engine σ) (l : LoopBound) (m : Stashes σ) : Stashes σ :=
  (m.step e l).value.1

/-- The run is over after at most so many rounds. -/
inductive StopsWithin (e : Engine σ) (l : LoopBound) : Nat → Stashes σ → Prop
  | idle {n : Nat} {m : Stashes σ} : m.active = [] → StopsWithin e l n m
  | fails {n : Nat} {m : Stashes σ} {err : EngineError} :
    (m.step e l).value.2 = some err → StopsWithin e l (n + 1) m
  | round {n : Nat} {m : Stashes σ} : m.active ≠ [] →
    (m.step e l).value.2 = none → StopsWithin e l n (m.next e l) → StopsWithin e l (n + 1) m

/-- A round without active states changes nothing. -/
theorem next_of_active_eq_nil (h : m.active = []) : m.next e l = m := by
  rw [next, step_value, h]
  ext1 <;> simp [h]

theorem active_ne_nil_of_error {err : EngineError} (h : (m.step e l).value.2 = some err) :
    m.active ≠ [] := by
  intro hnone
  rw [step_value, hnone] at h
  cases h

/-- A run proceeds from what a turn leaves. -/
theorem proceed_eq (e : Engine σ) (l : LoopBound) (r : Journaled (Stashes σ)) :
    proceed e l r =
      match turn e l r with
      | .inl r' => proceed e l r'
      | .inr result => result := by
  have : Nonempty (Journaled (Stashes σ × Option EngineError)) := ⟨(·, none) <$> r⟩
  rw [proceed, repeatM_eq_of_monadTail, repeatM.body]
  cases turn e l r with
  | inl r' => rfl
  | inr result => rfl

section Turn

variable {r : Journaled (Stashes σ)}

theorem proceed_of_active_eq_nil (h : r.value.active = []) :
    proceed e l r = r >>= fun m => pure (m, none) := by
  rw [proceed_eq, turn, h, if_pos List.isEmpty_nil]
  rfl

theorem proceed_of_error {err : EngineError} (h : (r.value.step e l).value.2 = some err) :
    proceed e l r = r >>= step e l := by
  rw [proceed_eq, turn, if_neg (by simpa using active_ne_nil_of_error h)]
  simp only [Journaled.value_bind, h]

theorem proceed_of_step (hactive : r.value.active ≠ []) (h : (r.value.step e l).value.2 = none) :
    proceed e l r = proceed e l (Prod.fst <$> (r >>= step e l)) := by
  rw [proceed_eq, turn, if_neg (by simpa using hactive)]
  simp only [Journaled.value_bind, h]

end Turn

theorem run_of_active_eq_nil (h : m.active = []) : m.run e l = pure (m, none) :=
  proceed_of_active_eq_nil h

theorem run_of_error {err : EngineError} (h : (m.step e l).value.2 = some err) :
    m.run e l = m.step e l :=
  proceed_of_error h

/-- What a run has done so far makes no difference to how it goes on, if it stops. -/
theorem StopsWithin.proceed_eq_bind {n : Nat} {r : Journaled (Stashes σ)}
    (h : StopsWithin e l n r.value) : proceed e l r = r >>= run e l := by
  generalize hm : r.value = m at h
  induction h generalizing r with
  | idle hnone =>
    subst hm
    rw [proceed_of_active_eq_nil hnone]
    exact Journaled.bind_congr_value (run_of_active_eq_nil hnone).symm
  | fails herr =>
    subst hm
    rw [proceed_of_error herr]
    exact Journaled.bind_congr_value (run_of_error herr).symm
  | round hactive hok _ ih =>
    -- the hypothesis serves twice: with what was done before this round, and without it
    subst hm
    rw [proceed_of_step hactive hok, ih rfl, map_bind, bind_assoc]
    refine Journaled.bind_congr_value ?_
    have hrun : r.value.run e l = proceed e l (Prod.fst <$> r.value.step e l) :=
      proceed_of_step hactive hok
    rw [hrun, ih rfl]

theorem run_of_step {n : Nat} (hactive : m.active ≠ []) (hok : (m.step e l).value.2 = none)
    (h : StopsWithin e l n (m.next e l)) :
    m.run e l = m.step e l >>= fun _ => (m.next e l).run e l := by
  rw [run, proceed_of_step hactive hok, pure_bind, StopsWithin.proceed_eq_bind h, bind_map_left]
  exact Journaled.bind_congr_value rfl

/-- The stashes that rounds, also failed ones, and stops make of a run from an entry state. -/
inductive Reached (e : Engine σ) (l : LoopBound) : Stashes σ → Prop
  | start {a : Address} {s : σ} : e.entry a = .ok s → Reached e l (.start s)
  | step {m : Stashes σ} : Reached e l m → Reached e l (m.next e l)
  | stop {m : Stashes σ} (p : σ → Bool) : Reached e l m → Reached e l (m.stopActive p)

/-- Active states come from the engine, and they go on unless they are entry states. -/
theorem Reached.active (hm : Reached e l m) :
    ∀ s ∈ m.active, e.Reachable s ∧ ((∃ a, e.entry a = .ok s) ∨ goesOn l s = true) := by
  induction hm with
  | @start a s hs =>
    intro t ht
    obtain rfl : t = s := List.mem_singleton.mp ht
    exact ⟨.entry hs, Or.inl ⟨a, hs⟩⟩
  | step _ ih =>
    intro t ht
    obtain ⟨s, hs, next, hnext, ht, hgoes⟩ := mem_active_step ht
    exact ⟨.step (ih s hs).1 hnext ht, Or.inr hgoes⟩
  | stop p _ ih => exact fun s hs => ih s (List.mem_of_mem_filter hs)

end Stashes

end SymbolicPaths
