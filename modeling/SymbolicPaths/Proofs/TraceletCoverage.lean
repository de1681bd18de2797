import SymbolicPaths.Proofs.TraceletWalks
import SymbolicPaths.Proofs.Tracelets

/-!
# Suppressing overlap loses no block

Without overlap a start that is claimed is skipped, and a tracelet is cut short in front of a
claimed block. A block could thus be skipped because it is claimed and yet be on no path, or be
stopped in front of and never be started from. On acyclic code neither happens: every block of the
function is passed by some path, and all the paths that pass it were recorded for the same start
(`Explorer.tracelets_cover`).

An acyclic graph has no back edges, because a back edge closes a cycle; hence no walk along its
edges spins (`Graph.Acyclic.tame`), and nothing is dropped but what is set aside. A free start then
always records a path: a walk that can be cut off after `n` rounds either goes on, or it has come to
its end, or it stops short in the round after (`Graph.Recorded.next`, `Graph.exists_recorded`).
Every path begins at its start once there is a round (`Graph.TraceletPaths.head?_history`), so that
a start is claimed as soon as it is done.

The invariant of the loop over the starts is that a start which has been dealt with is claimed or on
a path (`Explorer.TraceletGroups.covers`). In the beginning nothing is claimed.
-/

namespace SymbolicPaths

open Relation

namespace Graph

variable {g : Graph} {roots : List Address} {bound : UInt32} {start : Address}
  {claimed : Set Address}

/-! ### Acyclic graphs -/

/-- No path of edges comes back to where it has begun. -/
def Acyclic (g : Graph) : Prop :=
  ∀ a, ¬ TransGen g.Edge a a

theorem Acyclic.isBackEdge_eq_false (hg : g.Acyclic) (u v : Address) :
    (LoopBound.ofGraph g roots bound).isBackEdge u v = false := by
  rw [← Bool.not_eq_true]
  intro hback
  obtain ⟨hedge, hcycle⟩ := edge_of_backEdges hback
  exact hg u (TransGen.head' hedge hcycle)

/-- Where there is no back edge, none can be taken too often. -/
theorem Acyclic.tame (hg : g.Acyclic) (w : List Address) :
    (LoopBound.ofGraph g roots bound).Tame w := by
  intro u v hback
  rw [hg.isBackEdge_eq_false u v] at hback
  cases hback

/-- A graph whose edges all lead upwards is acyclic. -/
theorem acyclic_of_lt (h : ∀ u v, g.Edge u v → u < v) : g.Acyclic := by
  intro a hcycle
  have hup : ∀ b, TransGen g.Edge a b → a < b := by
    intro b hpath
    induction hpath with
    | single hedge => exact h _ _ hedge
    | tail _ hedge ih => exact UInt64.lt_trans ih (h _ _ hedge)
  exact UInt64.lt_irrefl a (hup a hcycle)

/-! ### What a free start records -/

/-- A walk that a tracelet of so many rounds records, in one of the three ways. -/
def Recorded (g : Graph) (steps : Nat) (claimed : Set Address) (w : List Address) : Prop :=
  CutOff steps claimed w ∨ g.EndsFree steps claimed w ∨ StopsShort steps claimed w

section Round

variable {n : Nat} {w : List Address} (hw : g.IsWalk start w)

include hw

theorem IsWalk.ne_nil : w ≠ [] :=
  List.ne_nil_of_mem (List.mem_of_head? hw.starts)

/-- A walk goes on along an edge from its last block. -/
theorem IsWalk.concat {b : Address} (hedge : g.Edge (lastBlock w) b) :
    g.IsWalk start (w ++ [b]) where
  starts := by rw [List.head?_append_of_ne_nil _ hw.ne_nil, hw.starts]
  follows := (isChain_append_singleton hw.ne_nil).mpr ⟨hw.follows, hedge⟩

/-- A walk of free blocks that stands at a free block, too, is free. -/
theorem CutOff.forall_notMem (h : CutOff n claimed w) (hlast : lastBlock w ∉ claimed) :
    ∀ a ∈ w, a ∉ claimed := by
  intro a ha
  rw [← dropLast_append_lastBlock hw.ne_nil, List.mem_append, List.mem_singleton] at ha
  rcases ha with ha | rfl
  · exact h.2 a ha
  · exact hlast

/-- A walk that stands at a claimed block stops short in the next round. -/
theorem CutOff.stopsShort (hstart : start ∉ claimed) (h : CutOff n claimed w)
    (hlast : lastBlock w ∈ claimed) : StopsShort (n + 1) claimed w := by
  refine ⟨?_, by have := h.1; omega, h.2, lastBlock w, getLast?_eq_lastBlock hw.ne_nil, hlast⟩
  -- it has left its start, which is free
  by_contra hshort
  have hnothing : w.dropLast = [] := by
    rw [← List.length_eq_zero_iff, List.length_dropLast]
    omega
  have hhead := hw.starts
  rw [← dropLast_append_lastBlock hw.ne_nil, hnothing] at hhead
  exact hstart (Option.some.inj hhead ▸ hlast)

/-- A free walk without a successor ends in the next round. -/
theorem CutOff.endsFree (h : CutOff n claimed w) (hlast : lastBlock w ∉ claimed)
    (hnext : g.successors (lastBlock w) = []) : g.EndsFree (n + 1) claimed w := by
  have hlength := h.1
  exact ⟨by omega, h.forall_notMem hw hlast, lastBlock w, getLast?_eq_lastBlock hw.ne_nil, hnext⟩

/-- A free walk with a successor goes on in the next round. -/
theorem CutOff.concat (h : CutOff n claimed w) (hlast : lastBlock w ∉ claimed) (b : Address) :
    CutOff (n + 1) claimed (w ++ [b]) := by
  refine ⟨?_, ?_⟩
  · rw [List.length_append, h.1, List.length_singleton]
  · rw [List.dropLast_concat]
    exact h.forall_notMem hw hlast

/-- **One more round.** A walk that would be cut off before the round goes on, or it is recorded in
another way. A walk that is at its end or stops short stays as it is. -/
theorem Recorded.next (hstart : start ∉ claimed) (h : g.Recorded n claimed w) :
    ∃ w, g.IsWalk start w ∧ g.Recorded (n + 1) claimed w := by
  rcases h with hcut | ⟨hlength, hrest⟩ | ⟨hlong, hlength, hrest⟩
  · by_cases hlast : lastBlock w ∈ claimed
    · exact ⟨w, hw, Or.inr (Or.inr (hcut.stopsShort hw hstart hlast))⟩
    · cases hnext : g.successors (lastBlock w) with
      | nil => exact ⟨w, hw, Or.inr (Or.inl (hcut.endsFree hw hlast hnext))⟩
      | cons b targets =>
        have hedge : g.Edge (lastBlock w) b := mem_successors.mp (hnext ▸ List.mem_cons_self)
        exact ⟨w ++ [b], hw.concat hedge, Or.inl (hcut.concat hw hlast b)⟩
  · exact ⟨w, hw, Or.inr (Or.inl ⟨by omega, hrest⟩)⟩
  · exact ⟨w, hw, Or.inr (Or.inr ⟨hlong, by omega, hrest⟩)⟩

end Round

/-- **All rounds.** However many rounds there are, some walk from a free start is recorded. -/
theorem exists_recorded (hstart : start ∉ claimed) (steps : Nat) :
    ∃ w, g.IsWalk start w ∧ g.Recorded steps claimed w := by
  induction steps with
  | zero =>
    -- before the first round there is the start itself
    refine ⟨[start], ⟨rfl, List.isChain_singleton start⟩, Or.inl ⟨rfl, ?_⟩⟩
    intro a ha
    exact absurd ha List.not_mem_nil
  | succ steps ih =>
    obtain ⟨w, hw, hrecorded⟩ := ih
    exact hrecorded.next hw hstart

variable {steps : Nat} {paths : List ExecutionPath}

/-- On acyclic code a free start has a path. -/
theorem TraceletPaths.exists_mem (hg : g.Acyclic) (hstart : start ∉ claimed)
    (h : g.TraceletPaths (.ofGraph g roots bound) steps claimed start paths) : ∃ p, p ∈ paths := by
  obtain ⟨w, hw, hrecorded⟩ := exists_recorded (g := g) hstart steps
  have htame : (LoopBound.ofGraph g roots bound).Tame w := hg.tame w
  rcases hrecorded with hkind | hkind | hkind
  · exact ⟨_, h.mem_iff.mpr ⟨w, hw, htame, Or.inl ⟨hkind, rfl⟩⟩⟩
  · exact ⟨_, h.mem_iff.mpr ⟨w, hw, htame, Or.inr (Or.inl ⟨hkind, rfl⟩)⟩⟩
  · exact ⟨_, h.mem_iff.mpr ⟨w, hw, htame, Or.inr (Or.inr ⟨hkind, rfl⟩)⟩⟩

/-- Once there is a round, every path begins at its start. -/
theorem TraceletPaths.head?_history {l : LoopBound} (hsteps : 1 ≤ steps)
    (h : g.TraceletPaths l steps claimed start paths) :
    ∀ p ∈ paths, p.history.head? = some start := by
  -- a walk with a transition has its first block among those that it has passed
  have hpassed : ∀ w, g.IsWalk start w → 1 < w.length → w.dropLast.head? = some start := by
    intro w hw hlong
    rw [List.head?_dropLast, if_pos hlong, hw.starts]
  intro p hp
  obtain ⟨w, hw, -, ⟨hcut, rfl⟩ | ⟨-, rfl⟩ | ⟨hshort, rfl⟩⟩ := h.mem_iff.mp hp
  · have hlength := hcut.1
    exact hpassed w hw (by omega)
  · exact hw.starts
  · exact hpassed w hw hshort.1

end Graph

namespace Explorer

variable {g : Graph} {roots : List Address} {bound : UInt32} {steps : Nat} {claimed : Set Address}
  {starts : List Address} {groups : List (List ExecutionPath)}

/-! ### The loop over the starts -/

/-- Once there is a round, the paths of every start begin there. -/
theorem TraceletGroups.forall₂_head? {l : LoopBound} {allowOverlap : Bool} (hsteps : 1 ≤ steps)
    (h : TraceletGroups g l steps allowOverlap claimed starts groups) :
    List.Forall₂ (fun start paths => ∀ p ∈ paths, p.history.head? = some start) starts groups := by
  induction h with
  | done => exact .nil
  | taken _ _ ih => exact .cons (fun p hp => absurd hp List.not_mem_nil) ih
  | free _ hpaths _ ih => exact .cons (hpaths.head?_history hsteps) ih

/-- **All starts.** On acyclic code every start is claimed at first, or some path passes it. -/
theorem TraceletGroups.covers (hg : g.Acyclic) (hsteps : 1 ≤ steps)
    (h : TraceletGroups g (.ofGraph g roots bound) steps false claimed starts groups) :
    ∀ b ∈ starts, b ∈ claimed ∨ ∃ p ∈ groups.flatten, b ∈ p.history := by
  induction h with
  | done => exact fun b hb => absurd hb List.not_mem_nil
  | taken hstart _ ih =>
    intro b hb
    rcases List.mem_cons.mp hb with rfl | hb
    · exact Or.inl hstart
    · exact ih b hb
  | @free claimed start starts paths groups hstart hpaths _ ih =>
    intro b hb
    rw [List.flatten_cons]
    rcases List.mem_cons.mp hb with rfl | hb
    · -- the start is the first block of each of its paths, and there is one
      obtain ⟨p, hp⟩ := hpaths.exists_mem hg hstart
      have hhead := hpaths.head?_history hsteps p hp
      exact Or.inr ⟨p, List.mem_append_left _ hp, List.mem_of_head? hhead⟩
    · -- what this start has claimed is on one of its paths
      rcases ih b hb with (hb | ⟨p, hp, hb⟩) | ⟨p, hp, hb⟩
      · exact Or.inl hb
      · exact Or.inr ⟨p, List.mem_append_left _ hp, hb⟩
      · exact Or.inr ⟨p, List.mem_append_right _ hp, hb⟩

/-- A path that was recorded for the start with number `i` passes `b`. -/
def PassedFrom (groups : List (List ExecutionPath)) (i : Nat) (b : Address) : Prop :=
  ∃ paths, groups[i]? = some paths ∧ ∃ p ∈ paths, b ∈ p.history

/-- If the paths of different starts are disjoint, then a block is passed from one start at most. -/
theorem PassedFrom.unique
    (hdisjoint : groups.Pairwise fun earlier later =>
      ∀ p ∈ earlier, ∀ q ∈ later, p.history.Disjoint q.history)
    {i j : Nat} {b : Address} (hi : PassedFrom groups i b) (hj : PassedFrom groups j b) :
    i = j := by
  obtain ⟨ps, hps, p, hp, hbp⟩ := hi
  obtain ⟨qs, hqs, q, hq, hbq⟩ := hj
  obtain ⟨hilt, rfl⟩ := List.getElem?_eq_some_iff.mp hps
  obtain ⟨hjlt, rfl⟩ := List.getElem?_eq_some_iff.mp hqs
  rw [List.pairwise_iff_getElem] at hdisjoint
  rcases Nat.lt_trichotomy i j with hlt | heq | hgt
  · exact absurd hbq (hdisjoint i j hilt hjlt hlt p hp q hq hbp)
  · exact heq
  · exact absurd hbp (hdisjoint j i hjlt hilt hgt q hq p hp hbq)

/-- **Suppressing overlap loses no block of acyclic code.** Explore a function whose blocks are
nodes of an acyclic graph by tracelets of at least one round that must not overlap, with the
control-flow walker. The exploration succeeds, and its paths are those of its starts, one list after
another, each path beginning at its start. Every block of the function is passed by some path, and
no address is passed by paths of two starts. -/
theorem tracelets_cover (g : Graph) (roots : List Address) (bound : UInt32) (evaluator : Evaluator)
    (strict : Bool) (steps : UInt64) (f : Function) (hg : g.Acyclic) (hsteps : 1 ≤ steps.toNat)
    (hf : ∀ a ∈ f.blocks, g.contains a = true) :
    let x := walker g roots bound evaluator (.tracelet steps false) strict
    ∃ groups : List (List ExecutionPath),
      outcome (x.tracelets f steps.toNat false ∅ f.blocks) = .ok groups ∧
      outcome (x.explore f) = .ok groups.flatten ∧
      List.Forall₂ (fun start paths => ∀ p ∈ paths, p.history.head? = some start) f.blocks groups ∧
      (∀ b ∈ f.blocks, ∃ p ∈ groups.flatten, b ∈ p.history) ∧
      ∀ b i j, PassedFrom groups i b → PassedFrom groups j b → i = j := by
  intro x
  obtain ⟨groups, hok, hgroups⟩ := traceletGroups_of_tracelets roots bound evaluator
    (.tracelet steps false) strict f steps.toNat false ∅ hf
  have hexplore : outcome (x.explore f) = .ok groups.flatten := by
    rw [explore_tracelet rfl, hok, ok_bind]
  have hdisjoint := (passesNone_of_tracelets g.walker_recordsHistory hok).2
  refine ⟨groups, hok, hexplore, hgroups.forall₂_head? hsteps, ?_,
    fun b i j => PassedFrom.unique hdisjoint⟩
  intro b hb
  rcases hgroups.covers hg hsteps b hb with hclaimed | hpath
  · -- in the beginning nothing is claimed
    exact absurd hclaimed Std.ExtTreeSet.not_mem_empty
  · exact hpath

end Explorer

/-- A branch whose two arms meet again. -/
def Graph.diamond : Graph :=
  (((Graph.empty.addEdge 1 2).addEdge 1 3).addEdge 2 4).addEdge 3 4

theorem Graph.diamond_acyclic : diamond.Acyclic := by
  refine acyclic_of_lt fun u v hedge => ?_
  simp only [diamond, edge_addEdge, not_edge_empty, or_false] at hedge
  rcases hedge with ⟨rfl, rfl⟩ | ⟨rfl, rfl⟩ | ⟨rfl, rfl⟩ | ⟨rfl, rfl⟩ <;> decide

/-- Two rounds from each block of a branch, its last block first. The arm that was a start of its
own is stopped in front of when the branch is, and the other arm is claimed before its turn
comes. -/
theorem Explorer.tracelets_cover_diamond :
    let x := walker Graph.diamond [1] 0 ⟨∅, false⟩ (.tracelet 2 false) true
    let f : Function := ⟨1, "branch", 0, [4, 2, 1, 3], [4]⟩
    Graph.diamond.Acyclic ∧ (∀ a ∈ f.blocks, Graph.diamond.contains a = true) ∧
    ∃ groups : List (List ExecutionPath),
      groups = [[⟨[], [], [4]⟩], [⟨[], [], [2]⟩], [⟨[], [], [1, 3]⟩, ⟨[], [], [1]⟩], []] ∧
      outcome (x.explore f) = .ok groups.flatten ∧
      List.Forall₂ (fun start paths => ∀ p ∈ paths, p.history.head? = some start) f.blocks groups ∧
      (∀ b ∈ f.blocks, ∃ p ∈ groups.flatten, b ∈ p.history) ∧
      ∀ b i j, PassedFrom groups i b → PassedFrom groups j b → i = j := by
  intro x f
  have hnodes : ∀ a ∈ f.blocks, Graph.diamond.contains a = true := List.all_eq_true.mp (by decide)
  obtain ⟨groups, hok, hpaths⟩ := tracelets_cover Graph.diamond [1] 0 ⟨∅, false⟩ true 2 f
    Graph.diamond_acyclic (by decide) hnodes
  refine ⟨Graph.diamond_acyclic, hnodes, groups, ?_, hpaths⟩
  have hgroups : outcome (x.tracelets f 2 false ∅ f.blocks) =
      .ok [[⟨[], [], [4]⟩], [⟨[], [], [2]⟩], [⟨[], [], [1, 3]⟩, ⟨[], [], [1]⟩], []] := by
    decide +kernel
  exact Except.ok.inj (hok.symm.trans hgroups)

end SymbolicPaths
