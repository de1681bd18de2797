import SymbolicPaths.LoopBound
import SymbolicPaths.Proofs.GraphLaws
import SymbolicPaths.Proofs.KeyedMaps

/-!
# A graph depends only on what was added

A graph is built by additions of nodes and edges (`Addition`), in any order and with any
repetitions. Its nodes are the addresses that some addition mentions and its edges are the edges
that were added (`contains_build`, `edge_build`), both listed in ascending order. A graph has
nothing but its nodes and its edges (`Graph.eq_of_nodes_of_edges`), so two histories with the same
nodes and edges build one graph, and searches of it from the same roots find the same back edges
(`Graph.build_canonical`).

An edge touches two entries of the map of successor sets, its source and its target. What one
addition does to nodes and edges is said once (`contains_apply`, `edge_apply`); whole histories
follow by induction.
-/

namespace SymbolicPaths

/-- Something that is added to a graph. -/
inductive Addition where
  | node (a : Address)
  | edge (source target : Address)
  deriving DecidableEq

namespace Addition

/-- The graph after an addition. -/
def apply (g : Graph) : Addition → Graph
  | node a => g.addNode a
  | edge source target => g.addEdge source target

/-- Whether an addition mentions an address, as a node or as an end of an edge. -/
def Mentions : Addition → Address → Prop
  | node b, a => a = b
  | edge source target, a => a = source ∨ a = target

instance (x : Addition) (a : Address) : Decidable (x.Mentions a) :=
  match x with
  | node b => inferInstanceAs (Decidable (a = b))
  | edge source target => inferInstanceAs (Decidable (a = source ∨ a = target))

end Addition

namespace Graph

variable {g h : Graph} {u v : Address}

/-! ### Nodes and edges are all there is -/

/-- Graphs with the same nodes and the same edges are equal. -/
theorem eq_of_nodes_of_edges (hnodes : ∀ a, g.contains a = true ↔ h.contains a = true)
    (hedges : ∀ a b, g.Edge a b ↔ h.Edge a b) : g = h := by
  refine ext (eq_of_mem_of_getD ∅ hnodes fun a => ?_)
  -- the set of successors of `a`, empty if `a` is no node, has the same members in both graphs
  refine Std.ExtTreeSet.ext_contains fun b => ?_
  exact Bool.eq_iff_iff.mpr (hedges a b)

/-! ### One addition and a whole history -/

theorem contains_apply (x : Addition) :
    (x.apply g).contains u = true ↔ g.contains u = true ∨ x.Mentions u := by
  cases x with
  | node a => rw [Addition.apply, contains_addNode, Addition.Mentions, or_comm]
  | edge source target =>
    rw [Addition.apply, contains_addEdge, Addition.Mentions, ← or_assoc, or_comm]

theorem edge_apply (x : Addition) : (x.apply g).Edge u v ↔ g.Edge u v ∨ x = .edge u v := by
  cases x with
  | node a =>
    rw [Addition.apply, edge_addNode]
    exact ⟨Or.inl, fun hadded => hadded.resolve_right nofun⟩
  | edge source target =>
    have hsame : Addition.edge source target = .edge u v ↔ u = source ∧ v = target := by
      rw [Addition.edge.injEq, eq_comm, eq_comm (a := target)]
    rw [Addition.apply, edge_addEdge, hsame, or_comm]

/-- The graph that a history of additions builds. -/
def build (additions : List Addition) : Graph :=
  additions.foldl Addition.apply empty

variable {additions others : List Addition}

/-- The nodes are the addresses that the history mentions. -/
theorem contains_build : (build additions).contains u = true ↔ ∃ x ∈ additions, x.Mentions u := by
  -- a fold from any graph keeps the nodes of that graph
  have hfold (g : Graph) : (additions.foldl Addition.apply g).contains u = true ↔
      g.contains u = true ∨ ∃ x ∈ additions, x.Mentions u := by
    induction additions generalizing g with
    | nil => simp
    | cons x rest ih =>
      rw [List.foldl_cons, ih, contains_apply, or_assoc, List.exists_mem_cons_iff]
  rw [build, hfold, contains_empty]
  exact or_iff_right Bool.false_ne_true

/-- The edges are those that the history adds. -/
theorem edge_build : (build additions).Edge u v ↔ .edge u v ∈ additions := by
  have hfold (g : Graph) : (additions.foldl Addition.apply g).Edge u v ↔
      g.Edge u v ∨ .edge u v ∈ additions := by
    induction additions generalizing g with
    | nil => simp
    | cons x rest ih =>
      rw [List.foldl_cons, ih, edge_apply, or_assoc, List.mem_cons, eq_comm (a := x)]
  rw [build, hfold]
  exact or_iff_right not_edge_empty

/-- Two histories mention the same addresses and add the same edges. -/
def SameAdditions (additions others : List Addition) : Prop :=
  (∀ a, (∃ x ∈ additions, x.Mentions a) ↔ ∃ x ∈ others, x.Mentions a) ∧
    ∀ a b, Addition.edge a b ∈ additions ↔ .edge a b ∈ others

theorem SameAdditions.build_eq (h : SameAdditions additions others) :
    build additions = build others := by
  refine eq_of_nodes_of_edges (fun a => ?_) fun a b => ?_
  · rw [contains_build, contains_build]
    exact h.1 a
  · rw [edge_build, edge_build]
    exact h.2 a b

/-- **A graph depends only on what was added.** An address is a node exactly if some addition
mentions it, and there is an edge exactly if it was added. Nodes and successors are listed in
strictly ascending order, each list has all of them and nothing else, and successors are nodes.
Histories that mention the same addresses and add the same edges build equal graphs, with equal loop
bounds: from the same roots the search finds the same back edges. -/
theorem build_canonical (additions : List Addition) :
    (∀ a, (build additions).contains a = true ↔ ∃ x ∈ additions, x.Mentions a) ∧
    (∀ a b, (build additions).hasEdge a b = true ↔ .edge a b ∈ additions) ∧
    ((build additions).nodes.Pairwise (· < ·) ∧
      ∀ a, a ∈ (build additions).nodes ↔ ∃ x ∈ additions, x.Mentions a) ∧
    (∀ a, ((build additions).successors a).Pairwise (· < ·) ∧
      ∀ b, (b ∈ (build additions).successors a ↔ .edge a b ∈ additions) ∧
        (b ∈ (build additions).successors a → b ∈ (build additions).nodes)) ∧
    ∀ others, SameAdditions additions others → build additions = build others ∧
      ∀ roots bound, LoopBound.ofGraph (build additions) roots bound =
        .ofGraph (build others) roots bound := by
  have hnodes (a : Address) : a ∈ (build additions).nodes ↔ ∃ x ∈ additions, x.Mentions a :=
    mem_nodes.trans contains_build
  have hsuccessors (a b : Address) : b ∈ (build additions).successors a ↔ .edge a b ∈ additions :=
    mem_successors.trans edge_build
  refine ⟨fun a => contains_build, fun a b => hasEdge_iff.trans edge_build,
    ⟨nodes_pairwise _, hnodes⟩, fun a => ?_, fun others hsame => ?_⟩
  · refine ⟨successors_pairwise _ a, fun b => ⟨hsuccessors a b, fun hb => ?_⟩⟩
    exact (mem_successors.mp hb).target_mem
  · have hgraph : build additions = build others := hsame.build_eq
    exact ⟨hgraph, fun roots bound => by rw [hgraph]⟩

/-- A loop of two blocks and a block apart, with an edge added twice and a node before its edges. -/
def loopHistory : List Addition :=
  [.edge 0x20 0x10, .node 0x30, .edge 0x10 0x20, .node 0x10, .edge 0x20 0x10]

/-- The same additions in another order, and other repetitions. -/
def otherLoopHistory : List Addition :=
  [.node 0x30, .edge 0x10 0x20, .edge 0x20 0x10, .node 0x20, .node 0x30]

theorem build_canonical_loop : SameAdditions loopHistory otherLoopHistory ∧
    build loopHistory = build otherLoopHistory ∧
    (build loopHistory).nodes = [0x10, 0x20, 0x30] ∧
    (LoopBound.ofGraph (build otherLoopHistory) [0x10] 1).isBackEdge 0x20 0x10 = true ∧
    (LoopBound.ofGraph (build otherLoopHistory) [0x10] 1).isBackEdge 0x10 0x20 = false := by
  have hsame : SameAdditions loopHistory otherLoopHistory := by
    refine ⟨fun a => ?_, fun a b => ?_⟩
    · simp only [loopHistory, otherLoopHistory, List.exists_mem_cons_iff, Addition.Mentions]
      grind
    · simp only [loopHistory, otherLoopHistory, List.mem_cons]
      grind
  exact ⟨hsame, ((build_canonical loopHistory).2.2.2.2 otherLoopHistory hsame).1, by decide +kernel⟩

end Graph

end SymbolicPaths
