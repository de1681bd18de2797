import Mathlib.Data.List.Shortlex
import SymbolicPaths.Proofs.ExplorerLaws
import SymbolicPaths.Proofs.Termination
import SymbolicPaths.Proofs.Walker

/-!
# Full exploration lists the complete walks

Full exploration with the control-flow walker finds every walk of the graph from the function to a
block without successors that takes no back edge too often, each of them once, shorter walks first
and walks of one length in lexicographic order (`Explorer.explore_full_walker`).

After `k` rounds the active states are the walks with `k` transitions that do not spin, in order
(`Graph.frontier`, `Stashes.iterate_next_walker`). That these are all of them rests on the fact that
spinning is final: whatever a walk that does not spin has come from does not spin either
(`Graph.mem_frontier`). The dead ends are the complete walks among all frontiers, and the run ends
because walks that do not spin are short.
-/

namespace SymbolicPaths

open SymbolicState
open WalkState (ofWalk ended)

namespace Graph

variable {g : Graph} {l : LoopBound} {a : Address} {w : List Address}

/-- A walk from `a` along edges to a node without successors. -/
structure CompleteWalk (g : Graph) (a : Address) (w : List Address) : Prop where
  starts : w.head? = some a
  follows : w.IsChain fun u v => g.hasEdge u v = true
  ends : ∃ b, w.getLast? = some b ∧ g.contains b = true ∧ g.successors b = []

/-- The walks from `a` with a given number of transitions that never spin. -/
def frontier (g : Graph) (l : LoopBound) (a : Address) : Nat → List (List Address)
  | 0 => [[a]]
  | k + 1 => (g.frontier l a k).flatMap (g.extensions l)

theorem length_of_mem_frontier {k : Nat} (h : w ∈ g.frontier l a k) : w.length = k + 1 := by
  induction k generalizing w with
  | zero =>
    obtain rfl := List.mem_singleton.mp h
    rfl
  | succ k ih =>
    obtain ⟨v, hv, hw⟩ := List.mem_flatMap.mp h
    obtain ⟨b, -, rfl, -⟩ := mem_extensions.mp hw
    rw [List.length_append, ih hv]
    rfl

theorem ne_nil_of_mem_frontier {k : Nat} (h : w ∈ g.frontier l a k) : w ≠ [] := by
  rintro rfl
  exact absurd (length_of_mem_frontier h) (by simp)

theorem pairwise_lex_frontier (k : Nat) : (g.frontier l a k).Pairwise (List.Lex (· < ·)) := by
  induction k with
  | zero => exact List.pairwise_singleton _ _
  | succ k ih => exact pairwise_lex_extensions ih fun w hw => length_of_mem_frontier hw

/-- The walks of one frontier have one length, so that their order is the same for all walks. -/
theorem pairwise_shortlex_frontier (p : List Address → Bool) (k : Nat) :
    ((g.frontier l a k).filter p).Pairwise (List.Shortlex (· < ·)) := by
  refine List.Pairwise.imp_of_mem (fun {u v} hu hv h => ?_) ((pairwise_lex_frontier k).filter _)
  have hu := length_of_mem_frontier (List.mem_of_mem_filter hu)
  have hv := length_of_mem_frontier (List.mem_of_mem_filter hv)
  exact .of_lex (hu.trans hv.symm) h

/-- **The frontier is complete.** It holds all walks with so many transitions that do not spin. -/
theorem mem_frontier {k : Nat} :
    w ∈ g.frontier l a k ↔
      w.length = k + 1 ∧ w.head? = some a ∧ w.IsChain g.Edge ∧ l.isSpinning w = false := by
  induction k generalizing w with
  | zero =>
    constructor
    · intro h
      obtain rfl := List.mem_singleton.mp h
      exact ⟨rfl, rfl, List.isChain_singleton a, rfl⟩
    · rintro ⟨hlength, hhead, -, -⟩
      obtain ⟨b, rfl⟩ := List.length_eq_one_iff.mp hlength
      obtain rfl : b = a := Option.some.inj hhead
      exact List.mem_singleton_self _
  | succ k ih =>
    rw [frontier, List.mem_flatMap]
    constructor
    · rintro ⟨v, hv, hw⟩
      obtain ⟨b, hb, rfl, hspin⟩ := mem_extensions.mp hw
      have hne := ne_nil_of_mem_frontier hv
      obtain ⟨hlength, hhead, hchain, -⟩ := ih.mp hv
      refine ⟨by rw [List.length_append, hlength]; rfl, ?_, ?_, hspin⟩
      · rw [List.head?_append_of_ne_nil _ hne, hhead]
      · exact (isChain_append_singleton hne).mpr ⟨hchain, hb⟩
    · -- what is left of a walk without its last block is in the frontier before
      rintro ⟨hlength, hhead, hchain, hspin⟩
      have hw : w ≠ [] := by
        rintro rfl
        cases hlength
      have hdrop : w.dropLast.length = k + 1 := by rw [List.length_dropLast, hlength]; rfl
      have hne : w.dropLast ≠ [] := by
        intro h
        rw [h] at hdrop
        cases hdrop
      rw [← dropLast_append_lastBlock hw] at hhead hchain hspin
      rw [List.head?_append_of_ne_nil _ hne] at hhead
      obtain ⟨hchain, hedge⟩ := (isChain_append_singleton hne).mp hchain
      refine ⟨w.dropLast, ih.mpr ⟨hdrop, hhead, hchain, LoopBound.isSpinning_append _ hspin⟩, ?_⟩
      refine mem_extensions.mpr ⟨lastBlock w, hedge, (dropLast_append_lastBlock hw).symm, ?_⟩
      rwa [← dropLast_append_lastBlock hw]

theorem frontier_eq_nil_of_le {j k : Nat} (hjk : j ≤ k) (h : g.frontier l a j = []) :
    g.frontier l a k = [] := by
  induction hjk with
  | refl => exact h
  | step _ ih => rw [frontier, ih, List.flatMap_nil]

/-- The walks with a property among the first frontiers. -/
def walksWithin (g : Graph) (l : LoopBound) (a : Address) (p : List Address → Bool) (n : Nat) :
    List (List Address) :=
  (List.range n).flatMap fun k => (g.frontier l a k).filter p

theorem walksWithin_succ (p : List Address → Bool) (n : Nat) :
    g.walksWithin l a p (n + 1) = g.walksWithin l a p n ++ (g.frontier l a n).filter p := by
  rw [walksWithin, walksWithin, List.range_succ, List.flatMap_append, List.flatMap_singleton]

/-- The frontiers hold the walks that do not spin, by length. -/
theorem mem_walksWithin {p : List Address → Bool} {n : Nat} :
    w ∈ g.walksWithin l a p n ↔
      w.length < n + 1 ∧ w.head? = some a ∧ w.IsChain g.Edge ∧ l.isSpinning w = false ∧
      p w = true := by
  rw [walksWithin, List.mem_flatMap]
  constructor
  · rintro ⟨k, hk, hw⟩
    obtain ⟨hw, hp⟩ := List.mem_filter.mp hw
    obtain ⟨hlength, hhead, hchain, hspin⟩ := mem_frontier.mp hw
    have := List.mem_range.mp hk
    exact ⟨by omega, hhead, hchain, hspin, hp⟩
  · rintro ⟨hshort, hhead, hchain, hspin, hp⟩
    have hne : w ≠ [] := by
      rintro rfl
      cases hhead
    have hpos := List.length_pos_iff.mpr hne
    have hlength : w.length = w.length - 1 + 1 := by omega
    refine ⟨w.length - 1, List.mem_range.mpr (by omega), List.mem_filter.mpr ⟨?_, hp⟩⟩
    exact mem_frontier.mpr ⟨hlength, hhead, hchain, hspin⟩

theorem pairwise_shortlex_walksWithin (p : List Address → Bool) (n : Nat) :
    (g.walksWithin l a p n).Pairwise (List.Shortlex (· < ·)) := by
  unfold walksWithin
  rw [List.pairwise_flatMap]
  refine ⟨fun k _ => pairwise_shortlex_frontier p k, ?_⟩
  -- walks of different frontiers differ in length
  refine List.pairwise_lt_range.imp fun {j k} hjk u hu v hv => ?_
  have hu := length_of_mem_frontier (List.mem_of_mem_filter hu)
  have hv := length_of_mem_frontier (List.mem_of_mem_filter hv)
  exact .of_length_lt (by omega)

/-- A walk from a node ends at a node. -/
theorem contains_lastBlock (ha : g.contains a = true) (hhead : w.head? = some a)
    (hchain : w.IsChain g.Edge) : g.contains (lastBlock w) = true := by
  have hw : w ≠ [] := by
    rintro rfl
    cases hhead
  rw [← dropLast_append_lastBlock hw] at hhead hchain
  by_cases hne : w.dropLast = []
  · rw [hne] at hhead
    rwa [Option.some.inj hhead]
  · exact mem_nodes.mp ((isChain_append_singleton hne).mp hchain).2.target_mem

/-- A complete walk that spins nowhere is found as soon as the frontiers have run out. -/
theorem mem_walksWithin_isComplete {roots : List Address} {bound : UInt32} {n : Nat}
    (ha : g.contains a = true) (hn : g.frontier (.ofGraph g roots bound) a n = []) :
    w ∈ g.walksWithin (.ofGraph g roots bound) a g.isComplete n ↔
      g.CompleteWalk a w ∧ (LoopBound.ofGraph g roots bound).Tame w := by
  rw [mem_walksWithin]
  constructor
  · rintro ⟨-, hhead, hchain, hspin, hcomplete⟩
    refine ⟨⟨hhead, hchain, lastBlock w, getLast?_of_head? hhead, ?_, isComplete_iff.mp hcomplete⟩,
      (LoopBound.isSpinning_eq_false_iff_tame hchain).mp hspin⟩
    exact contains_lastBlock ha hhead hchain
  · rintro ⟨⟨hhead, hchain, b, hlast, -, hb⟩, htame⟩
    have hspin :=
      (LoopBound.isSpinning_eq_false_iff_tame (l := .ofGraph g roots bound) hchain).mpr htame
    refine ⟨?_, hhead, hchain, hspin, ?_⟩
    · -- a longer walk would be in a frontier that has run out
      by_contra hlong
      have hw : w ∈ g.frontier (.ofGraph g roots bound) a (w.length - 1) :=
        mem_frontier.mpr ⟨by omega, hhead, hchain, hspin⟩
      rw [frontier_eq_nil_of_le (by omega) hn] at hw
      exact absurd hw List.not_mem_nil
    · rw [getLast?_of_head? hhead] at hlast
      rw [isComplete_iff, Option.some.inj hlast, hb]

end Graph

namespace Stashes

open SymbolicPaths.Graph

variable {g : Graph} {l : LoopBound} {a : Address}

/-- **The stashes after `n` rounds.** The frontier is active, and the complete walks among the
frontiers before are dead ends. -/
theorem iterate_next_walker (n : Nat) :
    ((next g.walker l)^[n] (start (ofWalk [a]))).active = (g.frontier l a n).map ofWalk ∧
    ((next g.walker l)^[n] (start (ofWalk [a]))).deadended =
      (g.walksWithin l a g.isComplete n).map ended := by
  induction n with
  | zero => exact ⟨rfl, rfl⟩
  | succ n ih =>
    have hne : ∀ w ∈ g.frontier l a n, w ≠ [] := fun w hw => ne_nil_of_mem_frontier hw
    rw [Function.iterate_succ_apply']
    refine ⟨active_next_walker ih.1 hne, ?_⟩
    rw [deadended_next_walker ih.1 hne, ih.2, walksWithin_succ, List.map_append]

theorem stopsWithin_walker (g : Graph) (roots : List Address) (bound : UInt32)
    (ha : g.contains a = true) :
    ∃ n, StopsWithin g.walker (.ofGraph g roots bound) n (start (ofWalk [a])) := by
  have hnodes : ∀ s, g.walker.Reachable s → address s ∈ g.nodes.toFinset :=
    fun s hs => List.mem_toFinset.mpr (address_mem_nodes_of_reachable hs)
  exact ⟨_, stopsWithin_start g.walker_recordsHistory hnodes g roots bound (walker_entry ha)⟩

/-- A run of the walker that stops has all complete walks as dead ends. -/
theorem StopsWithin.run_walker {n : Nat} (h : StopsWithin g.walker l n (start (ofWalk [a]))) :
    ((start (ofWalk [a])).run g.walker l).value.2 = none ∧
    ∃ k, g.frontier l a k = [] ∧
      ((start (ofWalk [a])).run g.walker l).value.1.deadended =
        (g.walksWithin l a g.isComplete k).map ended := by
  obtain ⟨⟨k, -, hrounds⟩, hend⟩ := h.run_ends
  obtain ⟨hactive, hdeadended⟩ := iterate_next_walker (g := g) (l := l) (a := a) k
  rw [← hrounds] at hactive hdeadended
  rcases hend with ⟨herr, hnone⟩ | ⟨err, s, -, hs⟩
  · rw [hnone] at hactive
    exact ⟨herr, k, List.map_eq_nil_iff.mp hactive.symm, hdeadended⟩
  · -- the walker never fails
    cases hs

end Stashes

namespace Explorer

/-- The path of a state of the walker is its history, without any values. -/
theorem outcome_evaluate_walkState {x : Explorer WalkState} {f : Function} (s : WalkState) :
    outcome (x.evaluate f s) = .ok ⟨[], [], s.history⟩ := by
  rw [outcome_evaluate, Evaluator.evaluate_of_unknowns_eq_nil _ rfl]
  rfl

/-- The paths of a full exploration by the walker are the complete walks, without any values. -/
theorem outcome_explore_full_walker {g : Graph} {roots : List Address} {bound : UInt32} {n : Nat}
    (evaluator : Evaluator) (strict : Bool) {f : Function} (hf : g.contains f.address = true)
    (hstops : Stashes.StopsWithin g.walker (.ofGraph g roots bound) n
      (.start (ofWalk [f.address]))) :
    ∃ k, g.frontier (.ofGraph g roots bound) f.address k = [] ∧
      outcome ((walker g roots bound evaluator .full strict).explore f) =
        .ok ((g.walksWithin (.ofGraph g roots bound) f.address g.isComplete k).map
          fun w => ⟨[], [], w⟩) := by
  obtain ⟨herr, k, hk, hdeadended⟩ := hstops.run_walker
  refine ⟨k, hk, ?_⟩
  change outcome ((walker g roots bound evaluator .full strict).exploreFull f) = _
  rw [outcome_exploreFull (Graph.walker_entry hf)]
  dsimp only [walker]
  rw [herr, hdeadended, List.mapM_map]
  exact mapM_eq_ok fun w _ => outcome_evaluate_walkState (ended w)

/-- Explorations by the walker come to an end, in whatever mode. -/
theorem terminates_walker (g : Graph) (roots : List Address) (bound : UInt32)
    (evaluator : Evaluator) (mode : ExplorationMode) (strict : Bool) (f : Function) :
    (walker g roots bound evaluator mode strict).Terminates f := by
  intro _ s hs
  obtain ⟨hf, rfl⟩ := Graph.of_walker_entry hs
  exact Stashes.stopsWithin_walker g roots bound hf

/-- **Full exploration is sound, complete and without repetition.** With the control-flow walker and
a loop bound made from the same graph, the exploration of a function whose address is a node
terminates and succeeds. The histories of its paths are exactly the complete walks from the function
that traverse no back edge more often than the bound allows. They are listed by increasing length
and lexicographically within one length, each of them once. -/
theorem explore_full_walker (g : Graph) (roots : List Address) (bound : UInt32)
    (evaluator : Evaluator) (strict : Bool) (f : Function) (hf : g.contains f.address = true) :
    (walker g roots bound evaluator .full strict).Terminates f ∧
    ∃ paths, outcome ((walker g roots bound evaluator .full strict).explore f) = .ok paths ∧
      (∀ w, w ∈ paths.map (·.history) ↔
        g.CompleteWalk f.address w ∧ (LoopBound.ofGraph g roots bound).Tame w) ∧
      (paths.map (·.history)).Pairwise (List.Shortlex (· < ·)) ∧
      (paths.map (·.history)).Nodup := by
  obtain ⟨n, hstops⟩ := Stashes.stopsWithin_walker g roots bound hf
  obtain ⟨k, hk, hok⟩ := outcome_explore_full_walker evaluator strict hf hstops
  refine ⟨?_, _, hok, ?_⟩
  · intro _ s hs
    obtain rfl : ofWalk [f.address] = s := Except.ok.inj ((Graph.walker_entry hf).symm.trans hs)
    exact ⟨n, hstops⟩
  · rw [List.map_map, Function.comp_def, List.map_id']
    have horder := Graph.pairwise_shortlex_walksWithin (g := g) (l := .ofGraph g roots bound)
      (a := f.address) g.isComplete k
    exact ⟨fun w => Graph.mem_walksWithin_isComplete hf hk, horder, horder.nodup⟩

/-- A bound of one lets the loop be closed once, and no more. -/
theorem explore_full_lasso :
    Graph.lasso.contains 1 = true ∧
    ∃ paths, outcome ((walker Graph.lasso [1] 1 ⟨∅, false⟩ .full true).explore
        ⟨1, "loop", 0, [1, 2, 3], [3]⟩) = .ok paths ∧
      [1, 2, 1, 2, 3] ∈ paths.map (·.history) ∧
      [1, 2, 1, 2, 1, 2, 3] ∉ paths.map (·.history) := by
  refine ⟨by decide, ?_⟩
  obtain ⟨-, paths, hok, hmem, -, -⟩ :=
    explore_full_walker Graph.lasso [1] 1 ⟨∅, false⟩ true ⟨1, "loop", 0, [1, 2, 3], [3]⟩ (by decide)
  refine ⟨paths, hok, (hmem _).mpr ⟨⟨rfl, by decide, 3, rfl, by decide, by decide⟩, ?_⟩,
    fun h => ?_⟩
  · exact (LoopBound.isSpinning_eq_false_iff_tame (by decide)).mp (by decide)
  · have hspin := (LoopBound.isSpinning_eq_false_iff_tame (by decide)).mpr ((hmem _).mp h).2
    exact absurd hspin (by decide)

end Explorer

end SymbolicPaths
