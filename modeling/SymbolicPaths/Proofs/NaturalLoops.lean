import Mathlib.Data.List.Chain
import Mathlib.Logic.Relation
import SymbolicPaths.LoopBound
import SymbolicPaths.Proofs.DepthFirstSearch
import SymbolicPaths.Proofs.GraphLaws

/-!
# Back edges of reducible graphs

A node `v` dominates a node `u` if every path from the entry to `u` passes through `v`, and an edge
to a node that dominates its source closes a natural loop. Code made of branches and nested loops
has no other cycles: without the edges that close natural loops its graph is acyclic
(`Graph.Reducible`). For such graphs the depth-first search finds these edges and no others
(`LoopBound.isBackEdge_iff_dominates`), in whatever order it visits the nodes.

The stack of the search is a path from the entry without repetition, and two facts about it carry
the argument.

* Whatever dominates a node of the stack lies below it, or is the node itself
  (`Rooted.mem_of_dominates`). A node that dominates the innermost one is therefore open, and an
  edge to it is a back edge.
* A node of the stack does not dominate the one below (`Rooted.not_dominates`), because it would
  have to be open twice. The stack is thus a path of edges that close no natural loop. If an edge
  leads back into the stack, then the graph is reducible only if this edge closes one
  (`Rooted.dominates_of_mem`).

`Search.Natural` is the invariant that follows, in addition to `Search.Inv`. Since all nodes can be
reached from the entry, the search from the entry meets all of them, and searches from other roots
find nothing.
-/

namespace SymbolicPaths

open Relation

namespace Graph

variable {g : Graph} {entry u v : Address}

/-- Every path from `entry` to `u` passes through `v`. -/
def Dominates (g : Graph) (entry v u : Address) : Prop :=
  ∀ path : List Address, path.head? = some entry → path.getLast? = some u →
    path.IsChain g.Edge → v ∈ path

/-- The edge from `u` to `v` closes no natural loop. -/
def Onward (g : Graph) (entry u v : Address) : Prop :=
  g.Edge u v ∧ ¬ g.Dominates entry v u

/-- Without the edges that close natural loops there is no cycle. -/
def Reducible (g : Graph) (entry : Address) : Prop :=
  ∀ a, ¬ TransGen (g.Onward entry) a a

/-! ### Showing that graphs are reducible -/

theorem dominates_self (g : Graph) (entry u : Address) : g.Dominates entry u u :=
  fun _ _ hlast _ => List.mem_of_getLast? hlast

theorem dominates_entry (g : Graph) (entry u : Address) : g.Dominates entry entry u :=
  fun _ hhead _ _ => List.mem_of_head? hhead

/-- A path without `v` stays in a set of nodes that can be left only to `v`. -/
theorem forall_mem_of_isChain {inside : List Address}
    (hclosed : ∀ a ∈ inside, ∀ b, g.Edge a b → b = v ∨ b ∈ inside) :
    ∀ path : List Address, (∀ a ∈ path.head?, a ∈ inside) → path.IsChain g.Edge → v ∉ path →
      ∀ a ∈ path, a ∈ inside := by
  intro path
  induction path with
  | nil => exact fun _ _ _ a ha => absurd ha List.not_mem_nil
  | cons first rest ih =>
    intro hfirst hchain hv
    have hin : first ∈ inside := hfirst first rfl
    obtain ⟨hedge, hchain⟩ := List.isChain_cons.mp hchain
    have hnext : ∀ a ∈ rest.head?, a ∈ inside := by
      intro a ha
      rcases hclosed first hin a (hedge a ha) with rfl | ha'
      · exact absurd (List.mem_cons_of_mem _ (List.mem_of_head? ha)) hv
      · exact ha'
    intro a ha
    rcases List.mem_cons.mp ha with rfl | ha
    · exact hin
    · exact ih hnext hchain (fun h => hv (List.mem_cons_of_mem _ h)) a ha

/-- A node dominates whatever lies outside of some nodes around the entry that can be left only to
it. -/
theorem dominates_of_closed {inside : List Address} (hentry : entry ∈ inside)
    (hclosed : ∀ a ∈ inside, ∀ b, g.Edge a b → b = v ∨ b ∈ inside) (hu : u ∉ inside) :
    g.Dominates entry v u := by
  intro path hhead hlast hchain
  by_contra hv
  have hfirst : ∀ a ∈ path.head?, a ∈ inside := by
    intro a ha
    rw [hhead] at ha
    exact Option.some.inj ha ▸ hentry
  exact hu (forall_mem_of_isChain hclosed path hfirst hchain hv u (List.mem_of_getLast? hlast))

/-- A graph is reducible if its nodes have ranks that go up along all edges that close no natural
loop. -/
theorem reducible_of_rank (rank : Address → Nat)
    (hrank : ∀ u v, g.Edge u v → g.Dominates entry v u ∨ rank u < rank v) : g.Reducible entry := by
  have hup : ∀ u v, TransGen (g.Onward entry) u v → rank u < rank v := by
    intro u v h
    have honward : ∀ a b, g.Onward entry a b → rank a < rank b :=
      fun a b hab => (hrank a b hab.1).resolve_left hab.2
    induction h with
    | single hab => exact honward _ _ hab
    | tail _ hbc ih => exact ih.trans (honward _ _ hbc)
  exact fun a ha => Nat.lt_irrefl _ (hup a a ha)

/-! ### The stack as a path -/

/-- The open nodes, innermost first, are a path from `entry` that meets no node twice. -/
structure Rooted (g : Graph) (entry : Address) (nodes : List Address) : Prop where
  path : nodes.IsChain fun inner outer => g.Edge outer inner
  nodup : nodes.Nodup
  root : nodes.getLast? = some entry

namespace Rooted

variable {node inner : Address} {below : List Address}

/-- What lies below an open node is rooted as well. -/
theorem tail (h : g.Rooted entry (inner :: node :: below)) : g.Rooted entry (node :: below) where
  path := h.path.tail
  nodup := h.nodup.of_cons
  root := by simpa using h.root

/-- **Dominating nodes are open.** The stack is one of the paths that they are on. -/
theorem mem_of_dominates (h : g.Rooted entry (node :: below)) (hv : g.Dominates entry v node) :
    v ∈ node :: below := by
  have hchain : (node :: below).reverse.IsChain g.Edge := List.isChain_reverse.mpr h.path
  have hhead : (node :: below).reverse.head? = some entry := by
    rw [List.head?_reverse]
    exact h.root
  have hlast : (node :: below).reverse.getLast? = some node := by
    rw [List.getLast?_reverse]
    rfl
  exact List.mem_reverse.mp (hv _ hhead hlast hchain)

/-- An open node does not dominate the one below: it would be open twice. -/
theorem not_dominates (h : g.Rooted entry (inner :: node :: below)) :
    ¬ g.Dominates entry inner node := by
  intro hdom
  exact (List.nodup_cons.mp h.nodup).1 (h.tail.mem_of_dominates hdom)

/-- Every open node leads to the innermost one by edges that close no natural loop. -/
theorem onward_innermost (h : g.Rooted entry (node :: below)) :
    ∀ a ∈ node :: below, ReflTransGen (g.Onward entry) a node := by
  induction below generalizing node with
  | nil =>
    intro a ha
    obtain rfl := List.mem_singleton.mp ha
    exact ReflTransGen.refl
  | cons outer below ih =>
    intro a ha
    have hedge : g.Edge outer node := (List.isChain_cons_cons.mp h.path).1
    rcases List.mem_cons.mp ha with rfl | ha
    · exact ReflTransGen.refl
    · exact (ih h.tail a ha).tail ⟨hedge, h.not_dominates⟩

/-- **Edges into the stack close natural loops.** Otherwise they would close a cycle together with
the stack, and none of its edges would close a natural loop. -/
theorem dominates_of_mem (hred : g.Reducible entry) (h : g.Rooted entry (node :: below))
    (hedge : g.Edge node v) (hv : v ∈ node :: below) : g.Dominates entry v node := by
  by_contra hdom
  have hback : ReflTransGen (g.Onward entry) v node := h.onward_innermost v hv
  exact hred v (TransGen.tail' hback ⟨hedge, hdom⟩)

end Rooted

end Graph

/-! ### The search from the entry -/

namespace Search

variable {g : Graph} {entry : Address} {s : Search}

/-- The nodes of the stack, innermost first. -/
def openNodes (s : Search) : List Address :=
  s.stack.map Prod.fst

theorem openNodes_of_stack {node : Address} {pending : List Address}
    {outer : List (Address × List Address)} (hstack : s.stack = (node, pending) :: outer) :
    s.openNodes = node :: outer.map Prod.fst := by
  rw [openNodes, hstack]
  rfl

/-- Setting a mark makes at most the marked node done. -/
theorem done_insert {a u : Address} {m : Mark} (hu : Done (s.marks.insert a m) u) :
    u = a ∧ m = .done ∨ Done s.marks u := by
  unfold Done at hu ⊢
  rw [getElem?_insert_mark] at hu
  split at hu
  · next h => exact Or.inl ⟨h, Option.some.inj hu⟩
  · exact Or.inr hu

/-- What the search from the entry of a reducible graph knows. -/
structure Natural (g : Graph) (entry : Address) (s : Search) : Prop where
  /-- The stack leads back to the entry. -/
  root : ∀ a ∈ s.openNodes.getLast?, a = entry
  /-- Back edges close natural loops. -/
  sound : ∀ u v, s.back.Edge u v → g.Dominates entry v u
  /-- The edges of a node that is done are back edges if they close natural loops. -/
  complete : ∀ u v, Done s.marks u → g.Edge u v → g.Dominates entry v u → s.back.Edge u v
  /-- The targets of back edges have been met. -/
  back_met : ∀ u v, s.back.Edge u v → v ∈ s.marks
  /-- So have the successors of a node that is done. -/
  done_met : ∀ u v, Done s.marks u → g.Edge u v → v ∈ s.marks

theorem mem_marks_of_getElem? {a : Address} {m : Mark} (h : s.marks[a]? = some m) :
    a ∈ s.marks := by
  rw [Std.ExtTreeMap.mem_iff_isSome_getElem?, h]
  rfl

/-- The open nodes of a search from the entry are rooted. -/
theorem Natural.rooted (hN : Natural g entry s) (hI : Inv g [] s) {node : Address}
    {below : List Address} (hopen : s.openNodes = node :: below) :
    g.Rooted entry (node :: below) where
  path := by
    rw [← hopen]
    exact (List.isChain_map Prod.fst).mpr hI.path
  nodup := by
    rw [← hopen]
    exact hI.nodup
  root := by
    have hlast := List.getLast?_eq_some_getLast (List.cons_ne_nil node below)
    have hroot : (node :: below).getLast (List.cons_ne_nil node below) = entry := by
      refine hN.root _ ?_
      rw [hopen]
      exact hlast
    rw [hlast, hroot]

/-- Entering a node changes nothing about what is known. -/
theorem Natural.enter (hN : Natural g entry s) {a : Address} (hroot : s.stack = [] → a = entry) :
    Natural g entry (s.enter g a) := by
  have hdone : ∀ u, Done (s.marks.insert a .active) u → Done s.marks u :=
    fun u hu => (done_insert hu).resolve_left fun h => Mark.noConfusion h.2
  have hmet : ∀ u, u ∈ s.marks → u ∈ s.marks.insert a .active :=
    fun u hu => Std.ExtTreeMap.mem_insert.mpr (Or.inr hu)
  refine { root := fun b hb => ?root, sound := hN.sound,
           complete := fun u v hu => hN.complete u v (hdone u hu),
           back_met := fun u v h => hmet v (hN.back_met u v h),
           done_met := fun u v hu h => hmet v (hN.done_met u v (hdone u hu) h) }
  case root =>
    change b ∈ (a :: s.openNodes).getLast? at hb
    cases hopen : s.openNodes with
    | nil =>
      rw [hopen] at hb
      obtain rfl : a = b := Option.some.inj hb
      exact hroot (List.map_eq_nil_iff.mp hopen)
    | cons node below =>
      rw [hopen, List.getLast?_cons_cons, ← hopen] at hb
      exact hN.root b hb

/-- Passing a successor of the innermost node. The back edge that it may have added closes a natural
loop, and its target has been met. -/
theorem Natural.pass (hN : Natural g entry s) {back : Graph} {node next : Address}
    {rest : List Address} {outer : List (Address × List Address)}
    (hstack : s.stack = (node, next :: rest) :: outer)
    (hgrows : ∀ u v, s.back.Edge u v → back.Edge u v)
    (hback : ∀ u v, back.Edge u v → s.back.Edge u v ∨ g.Dominates entry v u ∧ v ∈ s.marks) :
    Natural g entry { s with stack := (node, rest) :: outer, back := back } := by
  refine { root := fun a ha => hN.root a (openNodes_of_stack hstack ▸ ha),
           sound := fun u v h => ?sound,
           complete := fun u v hu he hd => hgrows u v (hN.complete u v hu he hd),
           back_met := fun u v h => ?met, done_met := hN.done_met }
  case sound => exact (hback u v h).elim (hN.sound u v) And.left
  case met => exact (hback u v h).elim (hN.back_met u v) And.right

/-- **Closing a node.** Whatever dominates it is still open, so that of its edges those that close
natural loops are back edges by now. -/
theorem Natural.close (hN : Natural g entry s) (hI : Inv g [] s) {node : Address}
    {outer : List (Address × List Address)} (hstack : s.stack = (node, []) :: outer) :
    Natural g entry { s with stack := outer, marks := s.marks.insert node .done } := by
  have hopen := openNodes_of_stack hstack
  have hsettled := hI.settled
  rw [hstack] at hsettled
  -- nothing is left to look at and nothing lies above
  have hedges : ∀ v, g.Edge node v → s.back.Edge node v ∨ Done s.marks v := by
    intro v hv
    rcases hsettled.1 v hv with h | h | h | h
    · exact absurd h List.not_mem_nil
    · exact Or.inl h
    · exact Or.inr h
    · exact absurd h List.not_mem_nil
  have hdone : ∀ u, Done (s.marks.insert node .done) u → u = node ∨ Done s.marks u :=
    fun u hu => (done_insert hu).imp_left And.left
  have hmet : ∀ u, u ∈ s.marks → u ∈ s.marks.insert node .done :=
    fun u hu => Std.ExtTreeMap.mem_insert.mpr (Or.inr hu)
  refine { root := fun a ha => ?root, sound := hN.sound, complete := fun u v hu he hd => ?complete,
           back_met := fun u v h => hmet v (hN.back_met u v h),
           done_met := fun u v hu he => hmet v ?met }
  case root =>
    refine hN.root a ?_
    rw [hopen]
    change a ∈ (outer.map Prod.fst).getLast? at ha
    cases hbelow : outer.map Prod.fst with
    | nil =>
      rw [hbelow] at ha
      cases ha
    | cons b below =>
      rw [List.getLast?_cons_cons, ← hbelow]
      exact ha
  case complete =>
    rcases hdone u hu with rfl | hu
    · rcases hedges v he with h | h
      · exact h
      · -- an open node is not done
        have hv : v ∈ s.openNodes := by
          rw [hopen]
          exact (hN.rooted hI hopen).mem_of_dominates hd
        have hactive : s.marks[v]? = some .active := (hI.active_iff v).mpr hv
        unfold Done at h
        rw [hactive] at h
        cases h
    · exact hN.complete u v hu he hd
  case met =>
    rcases hdone u hu with rfl | hu
    · exact (hedges v he).elim (hN.back_met u v) mem_marks_of_getElem?
    · exact hN.done_met u v hu he

/-- **Invariant preservation.** One elementary step keeps what is known. -/
theorem Natural.step (hred : g.Reducible entry) (hN : Natural g entry s) (hI : Inv g [] s) :
    Natural g entry (s.step g) := by
  unfold Search.step
  split
  · exact hN
  · next node outer hstack => exact hN.close hI hstack
  · next node next rest outer hstack =>
    dsimp only
    split
    · -- the edge leads back into the stack
      next hmark =>
      refine hN.pass hstack (fun u v h => Graph.edge_addEdge.mpr (Or.inr h)) fun u v h => ?_
      rcases Graph.edge_addEdge.mp h with ⟨rfl, rfl⟩ | h
      · have hopen := openNodes_of_stack hstack
        have hedge : g.Edge u v :=
          hI.pending (u, v :: rest) (hstack ▸ List.mem_cons_self) v List.mem_cons_self
        have hv : v ∈ u :: outer.map Prod.fst := hopen ▸ (hI.active_iff v).mp hmark
        exact Or.inr ⟨(hN.rooted hI hopen).dominates_of_mem hred hedge hv,
          mem_marks_of_getElem? hmark⟩
      · exact Or.inl h
    · exact hN.pass hstack (fun _ _ h => h) fun _ _ h => Or.inl h
    · have hpass := hN.pass hstack (fun _ _ h => h) fun _ _ h => Or.inl h
      exact hpass.enter fun h => absurd h (List.cons_ne_nil _ _)

theorem Natural.run (hred : g.Reducible entry) (hN : Natural g entry s) (hI : Inv g [] s)
    (n : Nat) : Natural g entry (s.run g n) := by
  induction n generalizing s with
  | zero => exact hN
  | succ n ih =>
    rw [Search.run]
    split
    · exact hN
    · exact ih (hN.step hred hI) hI.step

theorem Natural.start (g : Graph) (entry : Address) : Natural g entry Search.start where
  root := by simp [Search.start, openNodes]
  sound := by simp [Search.start]
  complete := by simp [Search.start, Done]
  back_met := by simp [Search.start]
  done_met := by simp [Search.start, Done]

end Search

namespace Graph

open Search

variable {g : Graph} {entry : Address} {s : Search}

/-- The search from the entry ends with an invariant that covers all edges. -/
theorem natural_searchFrom (hred : g.Reducible entry) :
    Natural g entry (g.searchFrom Search.start entry) := by
  have hnew : entry ∉ Search.start.marks := by simp [Search.start]
  have hI : Inv g [] (Search.start.enter g entry) := (g.resting_start).enter hnew
  have hN : Natural g entry (Search.start.enter g entry) :=
    (Natural.start g entry).enter fun _ => rfl
  unfold searchFrom
  rw [if_neg (by simp [Search.start])]
  exact hN.run hred hI _

/-- The search from the entry is done with whatever can be reached from there. -/
theorem done_of_reachable (hred : g.Reducible entry) {a : Address}
    (ha : ReflTransGen g.Edge entry a) : Done (g.searchFrom Search.start entry).marks a := by
  have hN := natural_searchFrom hred
  have hrest : g.Resting (g.searchFrom Search.start entry) := (g.resting_start).searchFrom entry
  induction ha with
  | refl => exact hrest.1.done_of_mem hrest.2 (root_mem_marks_searchFrom entry)
  | tail _ hedge ih => exact hrest.1.done_of_mem hrest.2 (hN.done_met _ _ ih hedge)

/-- Once all nodes have been met, a search from a further root finds nothing: the root is no
node. -/
theorem back_searchFrom (hmet : ∀ a ∈ g.nodes, a ∈ s.marks) (hstack : s.stack = [])
    (root : Address) : (g.searchFrom s root).back = s.back := by
  unfold searchFrom
  split
  · rfl
  · next hnew =>
    have hnone : g.successors root = [] := by
      refine List.eq_nil_iff_forall_not_mem.mpr fun v hv => hnew ?_
      exact Std.ExtTreeMap.contains_iff_mem.mpr (hmet root (mem_successors.mp hv).source_mem)
    -- the root is entered and closed, and the search is over
    have hstep : ((s.enter g root).step g).stack = [] := by
      rw [Search.enter, Search.step, hnone]
      exact hstack
    have hback : ((s.enter g root).step g).back = s.back := by
      rw [Search.enter, Search.step, hnone]
    have hover : ∀ n, ((s.enter g root).step g).run g n = (s.enter g root).step g := by
      intro n
      cases n with
      | zero => rfl
      | succ n => rw [Search.run, hstep, if_pos List.isEmpty_nil]
    rw [searchLength, Search.run, if_neg (by simp [Search.enter]), hover, hback]

theorem back_foldl_searchFrom (roots : List Address) (hs : g.Resting s)
    (hmet : ∀ a ∈ g.nodes, a ∈ s.marks) : (roots.foldl g.searchFrom s).back = s.back := by
  induction roots generalizing s with
  | nil => rfl
  | cons root roots ih =>
    have hlater : ∀ a ∈ g.nodes, a ∈ (g.searchFrom s root).marks :=
      fun a ha => mem_marks_searchFrom root (hmet a ha)
    rw [List.foldl_cons, ih (hs.searchFrom root) hlater, back_searchFrom hmet hs.2]

end Graph

/-- **The back edges of a reducible graph are those that close natural loops.** Let all nodes of the
graph be reachable from an entry, and let the graph be acyclic without the edges whose targets
dominate their sources. If the search starts at the entry, then whatever the numbers of the nodes
and the further roots, an edge is a back edge exactly if its target dominates its source. -/
theorem LoopBound.isBackEdge_iff_dominates (g : Graph) (entry : Address) (roots : List Address)
    (bound : UInt32)
    (hreach : ∀ a ∈ g.nodes, ReflTransGen (fun u v => g.hasEdge u v = true) entry a)
    (hred : g.Reducible entry) (u v : Address) :
    (LoopBound.ofGraph g (entry :: roots) bound).isBackEdge u v = true ↔
      g.hasEdge u v = true ∧ g.Dominates entry v u := by
  have hN := Graph.natural_searchFrom hred
  have hrest : g.Resting (g.searchFrom Search.start entry) := (g.resting_start).searchFrom entry
  have hdone : ∀ a ∈ g.nodes, Search.Done (g.searchFrom Search.start entry).marks a :=
    fun a ha => Graph.done_of_reachable hred (hreach a ha)
  have hback : g.backEdges (entry :: roots) = (g.searchFrom Search.start entry).back := by
    rw [Graph.backEdges, List.cons_append, List.foldl_cons]
    exact Graph.back_foldl_searchFrom _ hrest fun a ha => Search.mem_marks_of_getElem? (hdone a ha)
  change (g.backEdges (entry :: roots)).Edge u v ↔ g.Edge u v ∧ g.Dominates entry v u
  rw [hback]
  constructor
  · intro h
    exact ⟨(hrest.1.closes u v h).1, hN.sound u v h⟩
  · rintro ⟨hedge, hdom⟩
    exact hN.complete u v (hdone u hedge.source_mem) hedge hdom

/-- Nested loops: an outer one from 1 back to the entry 5, and inside of it two that share the
header 2. One of these goes through 7, which is a loop of its own, and the other one may go around
it. -/
def Graph.nest : Graph :=
  ((((((((Graph.empty.addEdge 5 2).addEdge 2 1).addEdge 2 7).addEdge 7 7).addEdge 7 2
    ).addEdge 7 1).addEdge 1 2).addEdge 1 5).addEdge 1 3

/-- The two inner loops are found by their header, although the search does not meet their nodes in
the order of a run. The edge from 7 on to 1 leads down in number and closes no loop. -/
theorem LoopBound.isBackEdge_nest :
    (∀ a ∈ Graph.nest.nodes, ReflTransGen (fun u v => Graph.nest.hasEdge u v = true) 5 a) ∧
    Graph.nest.Reducible 5 ∧
    Graph.nest.Dominates 5 2 1 ∧ ¬ Graph.nest.Dominates 5 1 7 := by
  have hnodes : Graph.nest.nodes = [1, 2, 3, 5, 7] := by decide
  have hreach : ∀ a ∈ Graph.nest.nodes,
      ReflTransGen (fun u v => Graph.nest.hasEdge u v = true) 5 a := by
    have htwo : ReflTransGen (fun u v => Graph.nest.hasEdge u v = true) 5 2 := .single (by decide)
    have hone : ReflTransGen (fun u v => Graph.nest.hasEdge u v = true) 5 1 := htwo.tail (by decide)
    rw [hnodes]
    simp only [List.forall_mem_cons, List.not_mem_nil, false_imp_iff, implies_true, and_true]
    exact ⟨hone, htwo, hone.tail (by decide), .refl, htwo.tail (by decide)⟩
  -- every way out of the entry leads to 2
  have hheader : ∀ u, u ≠ 5 → Graph.nest.Dominates 5 2 u := by
    intro u hu
    refine Graph.dominates_of_closed (List.mem_singleton_self 5) (fun a ha b hb => Or.inl ?_)
      (by simpa)
    obtain rfl := List.mem_singleton.mp ha
    simpa [Graph.nest] using hb
  have hred : Graph.nest.Reducible 5 := by
    refine Graph.reducible_of_rank (fun a => [5, 2, 7, 1, 3].idxOf a) fun u v h => ?_
    simp only [Graph.nest, Graph.edge_addEdge, Graph.not_edge_empty, or_false] at h
    rcases h with ⟨rfl, rfl⟩ | ⟨rfl, rfl⟩ | ⟨rfl, rfl⟩ | ⟨rfl, rfl⟩ | ⟨rfl, rfl⟩ | ⟨rfl, rfl⟩ |
      ⟨rfl, rfl⟩ | ⟨rfl, rfl⟩ | ⟨rfl, rfl⟩
    · exact Or.inr (by decide)
    · exact Or.inl (Graph.dominates_entry _ _ _)
    · exact Or.inl (hheader 1 (by decide))
    · exact Or.inr (by decide)
    · exact Or.inl (hheader 7 (by decide))
    · exact Or.inl (Graph.dominates_self _ _ _)
    · exact Or.inr (by decide)
    · exact Or.inr (by decide)
    · exact Or.inr (by decide)
  have hback := LoopBound.isBackEdge_iff_dominates Graph.nest 5 [7, 9] 1 hreach hred
  refine ⟨hreach, hred, ((hback 1 2).mp (by decide)).2, fun hdom => ?_⟩
  have hnot : (LoopBound.ofGraph Graph.nest [5, 7, 9] 1).isBackEdge 7 1 = false := by decide
  rw [(hback 7 1).mpr ⟨by decide, hdom⟩] at hnot
  cases hnot

end SymbolicPaths
