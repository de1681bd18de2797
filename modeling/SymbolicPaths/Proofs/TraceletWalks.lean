import SymbolicPaths.Proofs.FullExploration

/-!
# Tracelets list the bounded walks

With the control-flow walker an exploration by tracelets records exactly the walks of the graph that
its starts, its number of rounds and its claims leave (`Explorer.explore_tracelet_walker`). What a
start records is said by `Graph.TraceletPaths`, in terms of walks alone. A walk that takes no back
edge too often is recorded in one of three ways:

* `CutOff`: the rounds are over. The walk has one transition for each round, and the blocks that it
  has executed were free; its last block is not executed and may be claimed.
* `EndsFree`: it has come to a block without successors and executed it, hence before the last
  round.
* `StopsShort`: it has come to a claimed block before the last round and does not execute it.

`Explorer.TraceletGroups` goes through the starts with a set of claims that grows after each of
them.

Stopping states before a round and then executing the others is one operation on stashes
(`Stashes.traceletRound`), and the rounds of a tracelet iterate it (`outcome_traceletRounds_of_ok`).
The stashes after `n` rounds are read off the frontiers of full exploration: the walks whose
executed blocks are free are active, and those set aside in earlier rounds are dead ends or stopped
(`Stashes.iterate_traceletRound_walker`).
-/

namespace SymbolicPaths

open SymbolicState
open WalkState (ofWalk ended)

namespace Graph

/-! ### What a tracelet records -/

/-- A walk of the graph from `a`. -/
structure IsWalk (g : Graph) (a : Address) (w : List Address) : Prop where
  starts : w.head? = some a
  follows : w.IsChain fun u v => g.hasEdge u v = true

/-- The walk has a transition for each round, and all its blocks but the last are free. -/
def CutOff (steps : Nat) (claimed : Set Address) (w : List Address) : Prop :=
  w.length = steps + 1 ∧ ∀ a ∈ w.dropLast, a ∉ claimed

/-- The walk has fewer transitions than there are rounds. All its blocks are free, and the last one
has no successor. -/
def EndsFree (g : Graph) (steps : Nat) (claimed : Set Address) (w : List Address) : Prop :=
  w.length < steps + 1 ∧ (∀ a ∈ w, a ∉ claimed) ∧ ∃ b, w.getLast? = some b ∧ g.successors b = []

/-- The walk has fewer transitions than there are rounds, but at least one. Its last block is
claimed and the others are free. -/
def StopsShort (steps : Nat) (claimed : Set Address) (w : List Address) : Prop :=
  1 < w.length ∧ w.length < steps + 1 ∧ (∀ a ∈ w.dropLast, a ∉ claimed) ∧
    ∃ b, w.getLast? = some b ∧ b ∈ claimed

/-- The walks from `start` with property `p` that traverse no back edge too often, each of them
once: by increasing length, and lexicographically within one length. -/
structure ListsWalks (g : Graph) (l : LoopBound) (start : Address) (p : List Address → Prop)
    (ws : List (List Address)) : Prop where
  mem_iff : ∀ w, w ∈ ws ↔ g.IsWalk start w ∧ l.Tame w ∧ p w
  ordered : ws.Pairwise (List.Shortlex (· < ·))
  nodup : ws.Nodup

/-- The paths of a tracelet: one for each walk that is cut off, then one for each that ends, then
one for each that stops short. Their histories are the blocks that were executed. -/
def TraceletPaths (g : Graph) (l : LoopBound) (steps : Nat) (claimed : Set Address)
    (start : Address) (paths : List ExecutionPath) : Prop :=
  ∃ cut finished stopped : List (List Address),
    g.ListsWalks l start (CutOff steps claimed) cut ∧
    g.ListsWalks l start (g.EndsFree steps claimed) finished ∧
    g.ListsWalks l start (StopsShort steps claimed) stopped ∧
    paths = (cut.map List.dropLast ++ finished ++ stopped.map List.dropLast).map
      fun history => ⟨[], [], history⟩

/-- A path of a tracelet comes from a walk in one of the three ways. -/
theorem TraceletPaths.mem_iff {g : Graph} {l : LoopBound} {steps : Nat} {claimed : Set Address}
    {start : Address} {paths : List ExecutionPath} (h : g.TraceletPaths l steps claimed start paths)
    {p : ExecutionPath} :
    p ∈ paths ↔ ∃ w, g.IsWalk start w ∧ l.Tame w ∧
      (CutOff steps claimed w ∧ p = ⟨[], [], w.dropLast⟩ ∨
        g.EndsFree steps claimed w ∧ p = ⟨[], [], w⟩ ∨
        StopsShort steps claimed w ∧ p = ⟨[], [], w.dropLast⟩) := by
  obtain ⟨cut, finished, stopped, hcut, hfinished, hstopped, rfl⟩ := h
  simp only [List.map_append, List.map_map, List.mem_append, List.mem_map, Function.comp_apply]
  constructor
  · rintro ((⟨w, hw, rfl⟩ | ⟨w, hw, rfl⟩) | ⟨w, hw, rfl⟩)
    · obtain ⟨hwalk, htame, hkind⟩ := (hcut.mem_iff w).mp hw
      exact ⟨w, hwalk, htame, Or.inl ⟨hkind, rfl⟩⟩
    · obtain ⟨hwalk, htame, hkind⟩ := (hfinished.mem_iff w).mp hw
      exact ⟨w, hwalk, htame, Or.inr (Or.inl ⟨hkind, rfl⟩)⟩
    · obtain ⟨hwalk, htame, hkind⟩ := (hstopped.mem_iff w).mp hw
      exact ⟨w, hwalk, htame, Or.inr (Or.inr ⟨hkind, rfl⟩)⟩
  · rintro ⟨w, hwalk, htame, ⟨hkind, rfl⟩ | ⟨hkind, rfl⟩ | ⟨hkind, rfl⟩⟩
    · exact Or.inl (Or.inl ⟨w, (hcut.mem_iff w).mpr ⟨hwalk, htame, hkind⟩, rfl⟩)
    · exact Or.inl (Or.inr ⟨w, (hfinished.mem_iff w).mpr ⟨hwalk, htame, hkind⟩, rfl⟩)
    · exact Or.inr ⟨w, (hstopped.mem_iff w).mpr ⟨hwalk, htame, hkind⟩, rfl⟩

/-! ### Free walks -/

variable {g : Graph} {l : LoopBound} {claimed : AddressSet} {a : Address} {w : List Address}

/-- Whether no block of a walk is claimed. -/
def isFree (claimed : AddressSet) (w : List Address) : Bool :=
  w.all fun b => !claimed.contains b

theorem isFree_iff : isFree claimed w = true ↔ ∀ b ∈ w, b ∉ claimed := by
  simp only [isFree, List.all_eq_true, Bool.not_eq_true', ← Bool.not_eq_true,
    ← Std.ExtTreeSet.mem_iff_contains]

/-- A walk is free if its last block is and it has passed free blocks only. -/
theorem isFree_eq (hw : w ≠ []) :
    isFree claimed w = (!claimed.contains (lastBlock w) && isFree claimed w.dropLast) := by
  conv_lhs => rw [← dropLast_append_lastBlock hw]
  rw [isFree, List.all_append, Bool.and_comm, isFree]
  simp

/-- The walks that have passed free blocks only come from those that could go on because their last
block was free, too. -/
theorem filter_isFree_frontier_succ (k : Nat) :
    ((g.frontier l a (k + 1)).filter fun w => isFree claimed w.dropLast) =
      ((g.frontier l a k).filter (isFree claimed)).flatMap (g.extensions l) := by
  rw [frontier, List.filter_flatMap, ← flatMap_ite]
  refine List.flatMap_congr fun w _ => ?_
  -- all extensions of a walk have passed the same blocks
  have hpassed : ∀ v ∈ g.extensions l w, isFree claimed v.dropLast = isFree claimed w := by
    intro v hv
    obtain ⟨b, -, rfl, -⟩ := mem_extensions.mp hv
    rw [List.dropLast_concat]
  rw [List.filter_congr hpassed]
  split
  · next h => rw [h, List.filter_true]
  · next h => rw [Bool.eq_false_iff.mpr h, List.filter_false]

end Graph

/-! ### The rounds of a tracelet -/

namespace Stashes

variable {σ : Type} [SymbolicState σ]

/-- One round of a tracelet: active states at claimed addresses are stopped, the others are
executed. -/
def traceletRound (e : Engine σ) (l : LoopBound) (claimed : AddressSet) (m : Stashes σ) :
    Stashes σ :=
  (m.stopActive fun s => claimed.contains (address s)).next e l

end Stashes

/-- If the engine never fails, then the rounds of a tracelet are so many rounds. That they end early
when no state is active makes no difference. -/
theorem Explorer.outcome_traceletRounds_of_ok {σ : Type} [SymbolicState σ] {x : Explorer σ}
    {f : Function} (claimed : AddressSet)
    (hok : ∀ m : Stashes σ, (m.step x.engine x.loopBound).value.2 = none) (steps : Nat)
    (m : Stashes σ) :
    outcome (x.traceletRounds f claimed steps m) =
      .ok ((Stashes.traceletRound x.engine x.loopBound claimed)^[steps] m) := by
  induction steps generalizing m with
  | zero => rfl
  | succ steps ih =>
    rw [outcome_traceletRounds_succ, Function.iterate_succ_apply]
    dsimp only
    split
    · next hnone =>
      -- once no state is active, a round changes nothing
      have hnone := List.isEmpty_iff.mp hnone
      have hround := Stashes.next_of_active_eq_nil (e := x.engine) (l := x.loopBound) hnone
      set kept := m.stopActive fun s => claimed.contains (address s) with hkept
      have hstop : (kept.stopActive fun s => claimed.contains (address s)) = kept := by
        ext1 <;> simp [Stashes.stopActive, hnone]
      have hfixed : Stashes.traceletRound x.engine x.loopBound claimed kept = kept := by
        rw [Stashes.traceletRound, hstop, hround]
      rw [Stashes.traceletRound, ← hkept, hround, Function.iterate_fixed hfixed]
    · rw [hok]
      exact ih _

namespace Stashes

open SymbolicPaths.Graph

variable {g : Graph} {l : LoopBound} {a : Address}

/-- **The stashes after `n` rounds of a tracelet.** Active are the walks of the frontier that have
passed free blocks only. Walks that were set aside in an earlier round are dead ends if they are
complete, and stopped if they stand at a claimed block. -/
theorem iterate_traceletRound_walker (claimed : AddressSet) (n : Nat) :
    let m := (traceletRound g.walker l claimed)^[n] (start (ofWalk [a]))
    m.active = ((g.frontier l a n).filter fun w => isFree claimed w.dropLast).map ofWalk ∧
    m.deadended = (g.walksWithin l a (fun w => g.isComplete w && isFree claimed w) n).map ended ∧
    m.stopped = (g.walksWithin l a
      (fun w => claimed.contains (lastBlock w) && isFree claimed w.dropLast) n).map ofWalk := by
  induction n with
  | zero => exact ⟨rfl, rfl, rfl⟩
  | succ n ih =>
    dsimp only at ih ⊢
    obtain ⟨hactive, hdeadended, hstopped⟩ := ih
    rw [Function.iterate_succ_apply', traceletRound]
    set m := (traceletRound g.walker l claimed)^[n] (start (ofWalk [a]))
    have hne : ∀ w ∈ g.frontier l a n, w ≠ [] := fun w hw => ne_nil_of_mem_frontier hw
    -- what is executed are the free walks of the frontier
    have hkept : (m.stopActive fun s => claimed.contains (address s)).active =
        ((g.frontier l a n).filter (isFree claimed)).map ofWalk := by
      change m.active.filter _ = _
      rw [hactive, List.filter_map, List.filter_filter]
      exact congrArg _ (List.filter_congr fun w hw => (isFree_eq (hne w hw)).symm)
    have hne' : ∀ w ∈ (g.frontier l a n).filter (isFree claimed), w ≠ [] :=
      fun w hw => hne w (List.mem_of_mem_filter hw)
    refine ⟨?_, ?_, ?_⟩
    · rw [active_next_walker hkept hne', filter_isFree_frontier_succ]
    · rw [deadended_next_walker hkept hne', walksWithin_succ, List.map_append, ← List.filter_filter]
      exact congrArg (· ++ _) hdeadended
    · -- a round stops states and executes others, and execution leaves the stopped ones alone
      rw [next, stopped_step, walksWithin_succ, List.map_append, ← hstopped]
      change m.stopped ++ m.active.filter _ = _
      rw [hactive, List.filter_map, List.filter_filter]
      rfl

end Stashes

namespace Graph

variable {g : Graph} {roots : List Address} {bound : UInt32} {claimed : AddressSet} {a : Address}

/-- Walks along edges that spin nowhere are listed by their frontiers. -/
theorem listsWalks_of_mem_iff {p : List Address → Prop} {ws : List (List Address)}
    (hmem : ∀ w, w ∈ ws ↔ w.head? = some a ∧ w.IsChain g.Edge ∧
      (LoopBound.ofGraph g roots bound).isSpinning w = false ∧ p w)
    (hordered : ws.Pairwise (List.Shortlex (· < ·))) :
    g.ListsWalks (.ofGraph g roots bound) a p ws where
  mem_iff := by
    intro w
    rw [hmem]
    constructor
    · rintro ⟨hhead, hchain, hspin, hp⟩
      exact ⟨⟨hhead, hchain⟩, (LoopBound.isSpinning_eq_false_iff_tame hchain).mp hspin, hp⟩
    · rintro ⟨⟨hhead, hchain⟩, htame, hp⟩
      exact ⟨hhead, hchain, (LoopBound.isSpinning_eq_false_iff_tame (l := .ofGraph g roots bound)
        hchain).mpr htame, hp⟩
  ordered := hordered
  nodup := hordered.nodup

theorem listsWalks_cutOff (n : Nat) :
    g.ListsWalks (.ofGraph g roots bound) a (CutOff n {b | b ∈ claimed})
      ((g.frontier (.ofGraph g roots bound) a n).filter fun w => isFree claimed w.dropLast) := by
  refine listsWalks_of_mem_iff (fun w => ?_) (pairwise_shortlex_frontier _ n)
  rw [List.mem_filter, mem_frontier, isFree_iff]
  constructor
  · rintro ⟨⟨hlength, hhead, hchain, hspin⟩, hfree⟩
    exact ⟨hhead, hchain, hspin, hlength, hfree⟩
  · rintro ⟨hhead, hchain, hspin, hlength, hfree⟩
    exact ⟨⟨hlength, hhead, hchain, hspin⟩, hfree⟩

theorem listsWalks_endsFree (n : Nat) :
    g.ListsWalks (.ofGraph g roots bound) a (g.EndsFree n {b | b ∈ claimed})
      (g.walksWithin (.ofGraph g roots bound) a
        (fun w => g.isComplete w && isFree claimed w) n) := by
  refine listsWalks_of_mem_iff (fun w => ?_) (pairwise_shortlex_walksWithin _ n)
  rw [mem_walksWithin, Bool.and_eq_true, isFree_iff, isComplete_iff]
  constructor
  · rintro ⟨hshort, hhead, hchain, hspin, hcomplete, hfree⟩
    exact ⟨hhead, hchain, hspin, hshort, hfree, lastBlock w, getLast?_of_head? hhead, hcomplete⟩
  · rintro ⟨hhead, hchain, hspin, hshort, hfree, b, hlast, hb⟩
    rw [getLast?_of_head? hhead] at hlast
    exact ⟨hshort, hhead, hchain, hspin, Option.some.inj hlast ▸ hb, hfree⟩

/-- A walk that stands at a claimed block has left its start, for the start is free. -/
theorem listsWalks_stopsShort (ha : a ∉ claimed) (n : Nat) :
    g.ListsWalks (.ofGraph g roots bound) a (StopsShort n {b | b ∈ claimed})
      (g.walksWithin (.ofGraph g roots bound) a
        (fun w => claimed.contains (lastBlock w) && isFree claimed w.dropLast) n) := by
  refine listsWalks_of_mem_iff (fun w => ?_) (pairwise_shortlex_walksWithin _ n)
  rw [mem_walksWithin, Bool.and_eq_true, isFree_iff, ← Std.ExtTreeSet.mem_iff_contains]
  constructor
  · rintro ⟨hshort, hhead, hchain, hspin, hlast, hfree⟩
    refine ⟨hhead, hchain, hspin, ?_, hshort, hfree, lastBlock w, getLast?_of_head? hhead, hlast⟩
    -- a walk of one block is the start alone
    by_contra hlong
    obtain ⟨b, rfl⟩ : ∃ b, w = [b] := by
      cases w with
      | nil => cases hhead
      | cons b rest =>
        have hrest : rest = [] :=
          List.length_eq_zero_iff.mp (by rw [List.length_cons] at hlong; omega)
        exact ⟨b, by rw [hrest]⟩
    obtain rfl : b = a := Option.some.inj hhead
    exact ha hlast
  · rintro ⟨hhead, hchain, hspin, -, hshort, hfree, b, hlast, hb⟩
    rw [getLast?_of_head? hhead] at hlast
    exact ⟨hshort, hhead, hchain, hspin, Option.some.inj hlast ▸ hb, hfree⟩

end Graph

namespace Explorer

variable {g : Graph} (roots : List Address) (bound : UInt32) (evaluator : Evaluator)
  (mode : ExplorationMode) (strict : Bool) (f : Function)

/-- **One start.** A tracelet from a free node succeeds, and its paths are those of the walks that
it leaves. -/
theorem traceletPaths_of_traceletFrom (steps : Nat) {claimed : AddressSet} {start : Address}
    (hnode : g.contains start = true) (hfree : start ∉ claimed) :
    ∃ paths,
      outcome ((walker g roots bound evaluator mode strict).traceletFrom f steps claimed start) =
        .ok paths ∧
      g.TraceletPaths (.ofGraph g roots bound) steps {a | a ∈ claimed} start paths := by
  have hok : ∀ m : Stashes WalkState,
      (m.step g.walker (.ofGraph g roots bound)).value.2 = none := by
    intro m
    rw [Stashes.step_value, Stashes.round_of_ok fun s _ => rfl]
  obtain ⟨hactive, hdeadended, hstopped⟩ := Stashes.iterate_traceletRound_walker (g := g)
    (l := .ofGraph g roots bound) (a := start) claimed steps
  -- the three stashes that are recorded list the three kinds of walks
  refine ⟨_, ?_, _, _, _, Graph.listsWalks_cutOff steps, Graph.listsWalks_endsFree steps,
    Graph.listsWalks_stopsShort hfree steps, rfl⟩
  rw [outcome_traceletFrom, outcome_enter_ok (Graph.walker_entry hnode), ok_bind,
    outcome_traceletRounds_of_ok claimed hok, ok_bind]
  refine (mapM_eq_ok fun s _ => outcome_evaluate_walkState s).trans (congrArg _ ?_)
  dsimp only [walker]
  rw [Stashes.recorded, hactive, hdeadended, hstopped]
  simp only [List.map_append, List.map_map]
  rfl

/-- The paths of tracelets, one list for each start. A start that is claimed has none. What the
paths of a start have passed is claimed from then on, unless tracelets may overlap. -/
inductive TraceletGroups (g : Graph) (l : LoopBound) (steps : Nat) (allowOverlap : Bool) :
    Set Address → List Address → List (List ExecutionPath) → Prop
  | done {claimed : Set Address} : TraceletGroups g l steps allowOverlap claimed [] []
  | taken {claimed : Set Address} {start : Address} {starts : List Address}
      {groups : List (List ExecutionPath)} :
    start ∈ claimed → TraceletGroups g l steps allowOverlap claimed starts groups →
    TraceletGroups g l steps allowOverlap claimed (start :: starts) ([] :: groups)
  | free {claimed : Set Address} {start : Address} {starts : List Address}
      {paths : List ExecutionPath} {groups : List (List ExecutionPath)} :
    start ∉ claimed → g.TraceletPaths l steps claimed start paths →
    TraceletGroups g l steps allowOverlap
      (if allowOverlap then claimed else claimed ∪ {a | ∃ p ∈ paths, a ∈ p.history}) starts groups →
    TraceletGroups g l steps allowOverlap claimed (start :: starts) (paths :: groups)

/-- **All starts.** The claims that the exploration keeps are those that it should. -/
theorem traceletGroups_of_tracelets (steps : Nat) (allowOverlap : Bool) (claimed : AddressSet)
    {starts : List Address} (hnodes : ∀ a ∈ starts, g.contains a = true) :
    ∃ groups,
      outcome ((walker g roots bound evaluator mode strict).tracelets f steps allowOverlap claimed
        starts) = .ok groups ∧
      TraceletGroups g (.ofGraph g roots bound) steps allowOverlap {a | a ∈ claimed} starts
        groups := by
  induction starts generalizing claimed with
  | nil => exact ⟨[], rfl, .done⟩
  | cons start starts ih =>
    have hlater := fun a ha => hnodes a (List.mem_cons_of_mem _ ha)
    rw [outcome_tracelets_cons]
    by_cases hstart : start ∈ claimed
    · obtain ⟨groups, hok, hgroups⟩ := ih claimed hlater
      refine ⟨[] :: groups, ?_, .taken hstart hgroups⟩
      -- no path, no new claim
      have hsame : (if allowOverlap then claimed else
          claimed.insertMany (([] : List ExecutionPath).flatMap (·.history))) = claimed := by
        simp
      rw [if_pos (Std.ExtTreeSet.mem_iff_contains.mp hstart), ok_bind, hsame, hok, ok_bind]
    · obtain ⟨paths, hpaths, hwalks⟩ :=
        traceletPaths_of_traceletFrom roots bound evaluator mode strict f steps
          (hnodes start List.mem_cons_self) hstart
      obtain ⟨groups, hok, hgroups⟩ := ih (if allowOverlap then claimed else
        claimed.insertMany (paths.flatMap (·.history))) hlater
      refine ⟨paths :: groups, ?_, .free hstart hwalks ?_⟩
      · rw [if_neg fun h => hstart (Std.ExtTreeSet.mem_iff_contains.mpr h), hpaths, ok_bind, hok,
          ok_bind]
      · -- the set of claims is the one that the exploration keeps
        convert hgroups using 1
        cases allowOverlap with
        | true => rfl
        | false =>
          ext a
          simp only [Bool.false_eq_true, if_false, Set.mem_union, Set.mem_ofPred_eq,
            Std.ExtTreeSet.mem_insertMany_list, List.contains_iff_mem, List.mem_flatMap]

/-- **Exploration by tracelets records exactly the bounded walks.** With the control-flow walker and
a loop bound made from the same graph, the exploration of a function whose blocks are nodes
succeeds. Its paths are those of its blocks, one after another, as `TraceletGroups` says for a set
of claims that is empty at first. -/
theorem explore_tracelet_walker (g : Graph) (roots : List Address) (bound : UInt32)
    (evaluator : Evaluator) (strict : Bool) (steps : UInt64) (allowOverlap : Bool) (f : Function)
    (hf : ∀ a ∈ f.blocks, g.contains a = true) :
    ∃ groups,
      TraceletGroups g (.ofGraph g roots bound) steps.toNat allowOverlap ∅ f.blocks groups ∧
      outcome ((walker g roots bound evaluator (.tracelet steps allowOverlap) strict).explore f) =
        .ok groups.flatten := by
  obtain ⟨groups, hok, hgroups⟩ := traceletGroups_of_tracelets roots bound evaluator
    (.tracelet steps allowOverlap) strict f steps.toNat allowOverlap ∅ hf
  refine ⟨groups, ?_, ?_⟩
  · convert hgroups using 1
    ext a
    simp
  · rw [explore_tracelet rfl, hok, ok_bind]

/-- Two rounds from each block of a loop with an exit. The exit ends at once. From the second block
one walk is cut off and one stops short of the exit, and then the third block is claimed. -/
theorem explore_tracelet_walker_lasso :
    (∀ a ∈ [3, 2, 1], Graph.lasso.contains a = true) ∧
    ∃ groups, TraceletGroups Graph.lasso (.ofGraph Graph.lasso [1] 1) 2 false ∅ [3, 2, 1] groups ∧
      groups.flatten = [⟨[], [], [3]⟩, ⟨[], [], [2, 1]⟩, ⟨[], [], [2]⟩] := by
  have hnodes : ∀ a ∈ [3, 2, 1], Graph.lasso.contains a = true := List.all_eq_true.mp (by decide)
  obtain ⟨groups, hgroups, hok⟩ := explore_tracelet_walker Graph.lasso [1] 1 ⟨∅, false⟩ true 2 false
    ⟨1, "loop", 0, [3, 2, 1], [3]⟩ hnodes
  exact ⟨hnodes, groups, hgroups, (Except.ok.inj hok).symm⟩

end Explorer

end SymbolicPaths
