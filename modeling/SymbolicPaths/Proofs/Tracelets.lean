import SymbolicPaths.Proofs.ExplorerLaws
import SymbolicPaths.Proofs.Walker

/-!
# Tracelets without overlap

A tracelet is a run of a few rounds from one block of a function. Without overlap the addresses that
the paths of one start have passed are claimed once the start is done, and the runs of the later
starts stop before they pass a claimed address. Stopping comes before a round and recording after
the last one, so the states that a tracelet records may *stand* at a claimed address; they have
never *passed* one, and the history of a path is what its state has passed.

The argument has one level for each loop of the exploration. `Stashes.Avoids` says that no recorded
state has passed a claimed address: one round keeps it (`Avoids.next`), hence all rounds of a
tracelet do (`avoids_of_traceletRounds`), and the paths of a start inherit it
(`passesNone_of_traceletFrom`). What is claimed stays claimed, so that the paths of each start avoid
the histories of all starts before it (`passesNone_of_tracelets`).
-/

namespace SymbolicPaths

open SymbolicState

variable {σ : Type} [SymbolicState σ]

namespace Stashes

variable {e : Engine σ} {l : LoopBound} {claimed : AddressSet} {m : Stashes σ}

omit [SymbolicState σ] in
theorem mem_recorded {s : σ} :
    s ∈ m.recorded ↔ s ∈ m.active ∨ s ∈ m.deadended ∨ s ∈ m.stopped := by
  simp [recorded]

/-- No recorded state has passed a claimed address. -/
def Avoids (claimed : AddressSet) (m : Stashes σ) : Prop :=
  ∀ s ∈ m.recorded, ∀ a ∈ history s, a ∉ claimed

theorem Avoids.start {s : σ} (hs : history s = []) : Avoids claimed (.start s) := by
  intro t ht a ha
  obtain rfl : t = s := List.mem_singleton.mp ht
  rw [hs] at ha
  exact absurd ha List.not_mem_nil

omit [SymbolicState σ] in
/-- Stopping states moves them from one recorded stash to another. -/
theorem mem_recorded_stopActive (p : σ → Bool) {s : σ} :
    s ∈ (m.stopActive p).recorded ↔ s ∈ m.recorded := by
  cases hp : p s <;> simp [mem_recorded, stopActive, hp, or_comm, or_left_comm]

theorem Avoids.stopActive (h : Avoids claimed m) (p : σ → Bool) :
    Avoids claimed (m.stopActive p) :=
  fun s hs => h s ((mem_recorded_stopActive p).mp hs)

theorem address_notMem_of_stopActive {s : σ}
    (hs : s ∈ (m.stopActive fun s => claimed.contains (address s)).active) :
    address s ∉ claimed := by
  obtain ⟨-, hfree⟩ := List.mem_filter.mp hs
  rw [Bool.not_eq_true', ← Bool.not_eq_true] at hfree
  exact fun hclaimed => hfree (Std.ExtTreeSet.mem_iff_contains.mp hclaimed)

/-- Whatever a round records was recorded before, or it is a successor of an active state. -/
theorem mem_recorded_next {t : σ} (ht : t ∈ (m.next e l).recorded) :
    t ∈ m.recorded ∨ ∃ s ∈ m.active, ∃ next, e.step s = .ok next ∧ t ∈ next := by
  rcases mem_recorded.mp ht with ht | ht | ht
  · obtain ⟨s, hs, next, hnext, ht, -⟩ := mem_active_step ht
    exact Or.inr ⟨s, hs, next, hnext, ht⟩
  · rcases mem_deadended_step ht with ht | ⟨s, hs, next, hnext, ⟨-, rfl⟩ | ⟨ht, -⟩⟩
    · exact Or.inl (mem_recorded.mpr (Or.inr (Or.inl ht)))
    · exact Or.inl (mem_recorded.mpr (Or.inl hs))
    · exact Or.inr ⟨s, hs, next, hnext, ht⟩
  · rw [next, stopped_step] at ht
    exact Or.inl (mem_recorded.mpr (Or.inr (Or.inr ht)))

/-- **One round.** States that step from unclaimed addresses pass nothing else. -/
theorem Avoids.next (he : e.RecordsHistory) (h : Avoids claimed m)
    (hactive : ∀ s ∈ m.active, address s ∉ claimed) : Avoids claimed (m.next e l) := by
  intro t ht
  rcases mem_recorded_next ht with ht | ⟨s, hs, next, hnext, ht⟩
  · exact h t ht
  · intro a ha
    rw [he.step_history s next hnext t ht] at ha
    rcases List.mem_append.mp ha with ha | ha
    · exact h s (mem_recorded.mpr (Or.inl hs)) a ha
    · obtain rfl := List.mem_singleton.mp ha
      exact hactive s hs

end Stashes

namespace Explorer

variable {x : Explorer σ} {f : Function} {steps : Nat} {claimed : AddressSet}

/-- **All rounds of a tracelet.** States at claimed addresses are stopped before each round, so none
of them ever steps. -/
theorem avoids_of_traceletRounds (he : x.engine.RecordsHistory) {m m' : Stashes σ}
    (hm : m.Avoids claimed) (h : outcome (x.traceletRounds f claimed steps m) = .ok m') :
    m'.Avoids claimed := by
  refine of_traceletRounds (fun m hm => ?_) hm h
  -- stopping loses no state, so that only the round has to be looked at
  have hkept := hm.stopActive fun s => claimed.contains (address s)
  exact ⟨hkept, hkept.next he fun _ => Stashes.address_notMem_of_stopActive⟩

/-- No path passes a claimed address. -/
def PassesNone (claimed : AddressSet) (paths : List ExecutionPath) : Prop :=
  ∀ p ∈ paths, ∀ a ∈ p.history, a ∉ claimed

/-- What is claimed after a start was claimed before it, or one of its paths passes it. -/
theorem passesNone_insertMany {paths qs : List ExecutionPath} :
    PassesNone (claimed.insertMany (paths.flatMap (·.history))) qs ↔
      PassesNone claimed qs ∧ ∀ p ∈ paths, ∀ q ∈ qs, p.history.Disjoint q.history := by
  simp only [PassesNone, Std.ExtTreeSet.mem_insertMany_list, List.contains_iff_mem,
    List.mem_flatMap, not_or, not_exists, not_and]
  constructor
  · intro h
    exact ⟨fun q hq a ha => (h q hq a ha).1, fun p hp q hq a hap haq => (h q hq a haq).2 p hp hap⟩
  · intro ⟨hclaimed, hpaths⟩ q hq a ha
    exact ⟨hclaimed q hq a ha, fun p hp hap => hpaths p hp q hq hap ha⟩

/-- **One start.** The paths of a tracelet pass no claimed address. -/
theorem passesNone_of_traceletFrom (he : x.engine.RecordsHistory) {start : Address}
    {paths : List ExecutionPath}
    (h : outcome (x.traceletFrom f steps claimed start) = .ok paths) :
    PassesNone claimed paths := by
  rw [outcome_traceletFrom, bind_eq_ok_iff] at h
  obtain ⟨m, hm, h⟩ := h
  obtain ⟨m', hm', hpaths⟩ := bind_eq_ok_iff.mp h
  obtain ⟨s, hs, rfl⟩ := exists_entry_of_enter hm
  have havoids := avoids_of_traceletRounds he (.start (he.entry_history start s hs)) hm'
  intro p hp
  obtain ⟨t, ht, hpath⟩ := exists_of_mem_mapM hpaths p hp
  rw [history_of_evaluate hpath]
  exact havoids t ht

/-- **All starts.** The claims only grow, so the paths of a start avoid what is claimed at first and
what the paths of the starts before it pass. -/
theorem passesNone_of_tracelets (he : x.engine.RecordsHistory) {starts : List Address}
    {groups : List (List ExecutionPath)}
    (h : outcome (x.tracelets f steps false claimed starts) = .ok groups) :
    (∀ paths ∈ groups, PassesNone claimed paths) ∧
    groups.Pairwise fun earlier later =>
      ∀ p ∈ earlier, ∀ q ∈ later, p.history.Disjoint q.history := by
  induction starts generalizing claimed groups with
  | nil =>
    obtain rfl : [] = groups := Except.ok.inj h
    exact ⟨fun _ hpaths => absurd hpaths List.not_mem_nil, .nil⟩
  | cons start starts ih =>
    rw [outcome_tracelets_cons, bind_eq_ok_iff] at h
    obtain ⟨paths, hpaths, h⟩ := h
    obtain ⟨later, hlater, h⟩ := bind_eq_ok_iff.mp h
    obtain rfl : paths :: later = groups := Except.ok.inj h
    obtain ⟨havoid, hdisjoint⟩ := ih hlater
    have hfirst : PassesNone claimed paths := by
      split at hpaths
      · -- a claimed start has no paths
        obtain rfl : [] = paths := Except.ok.inj hpaths
        exact fun p hp => absurd hp List.not_mem_nil
      · exact passesNone_of_traceletFrom he hpaths
    have hrest := fun qs hqs => passesNone_insertMany.mp (havoid qs hqs)
    refine ⟨?_, List.pairwise_cons.mpr ⟨fun qs hqs => (hrest qs hqs).2, hdisjoint⟩⟩
    intro qs hqs
    rcases List.mem_cons.mp hqs with rfl | hqs
    · exact hfirst
    · exact (hrest qs hqs).1

/-- There is one list of paths for each start. -/
theorem length_of_tracelets {allowOverlap : Bool} {starts : List Address}
    {groups : List (List ExecutionPath)}
    (h : outcome (x.tracelets f steps allowOverlap claimed starts) = .ok groups) :
    groups.length = starts.length := by
  induction starts generalizing claimed groups with
  | nil =>
    obtain rfl : [] = groups := Except.ok.inj h
    rfl
  | cons start starts ih =>
    rw [outcome_tracelets_cons, bind_eq_ok_iff] at h
    obtain ⟨paths, -, h⟩ := h
    obtain ⟨later, hlater, h⟩ := bind_eq_ok_iff.mp h
    obtain rfl : paths :: later = groups := Except.ok.inj h
    exact congrArg (· + 1) (ih hlater)

/-- **Tracelets from different starts never overlap.** The paths of an exploration by tracelets
without overlap are those of its starts, one after another; whatever the engine, the function, the
number of rounds, the loop bound and the evaluator, two paths of different starts pass no address in
common. -/
theorem tracelets_disjoint (x : Explorer σ) (f : Function) (steps : UInt64)
    (paths : List ExecutionPath) (he : x.engine.RecordsHistory)
    (hmode : x.mode = .tracelet steps false) (h : outcome (x.explore f) = .ok paths) :
    ∃ groups : List (List ExecutionPath),
      outcome (x.tracelets f steps.toNat false ∅ f.blocks) = .ok groups ∧
      paths = groups.flatten ∧
      groups.length = f.blocks.length ∧
      groups.Pairwise fun earlier later =>
        ∀ p ∈ earlier, ∀ q ∈ later, p.history.Disjoint q.history := by
  rw [explore_tracelet hmode, bind_eq_ok_iff] at h
  obtain ⟨groups, hgroups, hpaths⟩ := h
  exact ⟨groups, hgroups, (Except.ok.inj hpaths).symm, length_of_tracelets hgroups,
    (passesNone_of_tracelets he hgroups).2⟩

/-- Two rounds from each block of a loop with an exit, the exit first. The second start goes round
the loop and stops before the exit, and nothing is left for the third one. -/
theorem tracelets_disjoint_lasso :
    let x := walker Graph.lasso [1] 1 ⟨∅, false⟩ (.tracelet 2 false) true
    let f : Function := ⟨1, "loop", 0, [3, 2, 1], [3]⟩
    outcome (x.explore f) = .ok [⟨[], [], [3]⟩, ⟨[], [], [2, 1]⟩, ⟨[], [], [2]⟩] ∧
    ∃ groups : List (List ExecutionPath),
      groups = [[⟨[], [], [3]⟩], [⟨[], [], [2, 1]⟩, ⟨[], [], [2]⟩], []] ∧
      groups.Pairwise fun earlier later =>
        ∀ p ∈ earlier, ∀ q ∈ later, p.history.Disjoint q.history := by
  intro x f
  have hok : outcome (x.explore f) = .ok [⟨[], [], [3]⟩, ⟨[], [], [2, 1]⟩, ⟨[], [], [2]⟩] := rfl
  obtain ⟨groups, hgroups, -, -, hdisjoint⟩ :=
    tracelets_disjoint x f 2 _ (Graph.walker_recordsHistory _) rfl hok
  exact ⟨hok, groups, (Except.ok.inj hgroups).symm, hdisjoint⟩

end Explorer

end SymbolicPaths
