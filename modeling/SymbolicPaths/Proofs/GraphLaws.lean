import Mathlib.Data.List.Nodup
import Mathlib.Logic.Relation
import SymbolicPaths.Graph

/-!
# Laws of control-flow graphs

What the functions on graphs say about each other, so that later arguments can leave trees of
successor sets alone. The central notion is the relation `Graph.Edge`: there is an edge from a block
to another one. `Graph.hasEdge` decides it (`hasEdge_iff`) and `Graph.successors` lists it
(`mem_successors`), in ascending order (`successors_pairwise`). Paths of the graph are its reflexive
and transitive closure, as usual.

Both ends of an edge are nodes (`Edge.source_mem`, `Edge.target_mem`). The second of these is what
the field `closed` of a graph says; the first holds because an address that is no node has no
successors.
-/

namespace SymbolicPaths

namespace Graph

variable {g : Graph} {a b u v : Address}

/-- There is an edge from `a` to `b`. -/
def Edge (g : Graph) (a b : Address) : Prop :=
  g.hasEdge a b = true

instance (g : Graph) : DecidableRel g.Edge :=
  fun a b => inferInstanceAs (Decidable (g.hasEdge a b = true))

theorem hasEdge_iff : g.hasEdge a b = true ↔ g.Edge a b := Iff.rfl

theorem hasEdge_eq_false_iff : g.hasEdge a b = false ↔ ¬ g.Edge a b := by
  rw [← hasEdge_iff, Bool.not_eq_true]

@[simp] theorem mem_successors : b ∈ g.successors a ↔ g.Edge a b := by
  rw [successors, Std.ExtTreeSet.mem_toList, ← Std.ExtTreeSet.contains_iff_mem]
  rfl

@[simp] theorem mem_nodes : a ∈ g.nodes ↔ g.contains a = true := by
  rw [nodes, Std.ExtTreeMap.mem_keys, ← Std.ExtTreeMap.contains_iff_mem]
  rfl

/-! ### Both ends of an edge are nodes -/

theorem Edge.source_mem (h : g.Edge a b) : a ∈ g.nodes := by
  rw [nodes, Std.ExtTreeMap.mem_keys]
  by_contra hout
  unfold Edge hasEdge at h
  rw [Std.ExtTreeMap.getD_eq_fallback hout] at h
  simp at h

theorem Edge.target_mem (h : g.Edge a b) : b ∈ g.nodes := by
  rw [nodes, Std.ExtTreeMap.mem_keys]
  cases hs : g.successorSets[a]? with
  | none =>
    unfold Edge hasEdge at h
    rw [Std.ExtTreeMap.getD_eq_getD_getElem?, hs] at h
    simp at h
  | some s =>
    refine g.closed hs ?_
    unfold Edge hasEdge at h
    rw [Std.ExtTreeMap.getD_eq_getD_getElem?, hs] at h
    exact Std.ExtTreeSet.contains_iff_mem.mp h

/-! ### Order and number of nodes and successors -/

/-- Successors are listed in strictly ascending order. -/
theorem successors_pairwise (g : Graph) (a : Address) :
    (g.successors a).Pairwise (· < ·) :=
  Std.ExtTreeSet.ordered_toList.imp fun h => Std.compare_eq_lt.mp h

/-- Nodes are listed in strictly ascending order. -/
theorem nodes_pairwise (g : Graph) : g.nodes.Pairwise (· < ·) :=
  Std.ExtTreeMap.ordered_keys.imp fun h => Std.compare_eq_lt.mp h

theorem nodes_nodup (g : Graph) : g.nodes.Nodup :=
  Std.ExtTreeMap.nodup_keys

@[simp] theorem length_nodes (g : Graph) : g.nodes.length = g.size :=
  Std.ExtTreeMap.length_keys

/-! ### Building graphs -/

@[simp] theorem not_edge_empty : ¬ empty.Edge u v := by
  simp [Edge, hasEdge, empty]

/-- Making an address a node changes no successor set: one that is not there counts as empty. -/
private theorem getD_insertIfNew_empty (m : Std.ExtTreeMap Address AddressSet) (a u : Address) :
    (m.insertIfNew a ∅).getD u ∅ = m.getD u ∅ := by
  rw [Std.ExtTreeMap.getD_insertIfNew]
  split
  · next h =>
    obtain rfl := Std.compare_eq_iff_eq.mp h.1
    rw [Std.ExtTreeMap.getD_eq_fallback h.2]
  · rfl

/-- Adding an edge adds that edge and no other. -/
@[simp] theorem edge_addEdge : (g.addEdge a b).Edge u v ↔ (u = a ∧ v = b) ∨ g.Edge u v := by
  unfold Edge hasEdge addEdge
  simp only [getD_insertIfNew_empty, Std.ExtTreeMap.getD_insert]
  split
  · next h =>
    obtain rfl := Std.compare_eq_iff_eq.mp h
    rw [Std.ExtTreeSet.contains_insert, Bool.or_eq_true, beq_iff_eq, Std.compare_eq_iff_eq]
    exact or_congr_left ⟨fun hv => ⟨rfl, hv.symm⟩, fun hv => hv.2.symm⟩
  · next h =>
    have hne : u ≠ a := fun hu => h (Std.compare_eq_iff_eq.mpr hu.symm)
    exact ⟨Or.inr, fun hv => hv.resolve_left fun hv => hne hv.1⟩

@[simp] theorem edge_addNode : (g.addNode a).Edge u v ↔ g.Edge u v := by
  unfold Edge hasEdge addNode
  rw [getD_insertIfNew_empty]

@[simp] theorem contains_empty : empty.contains u = false :=
  Std.ExtTreeMap.contains_empty

@[simp] theorem contains_addNode :
    (g.addNode a).contains u = true ↔ u = a ∨ g.contains u = true := by
  unfold contains addNode
  rw [Std.ExtTreeMap.contains_insertIfNew, Bool.or_eq_true, beq_iff_eq, Std.compare_eq_iff_eq,
    eq_comm]

@[simp] theorem contains_addEdge :
    (g.addEdge a b).contains u = true ↔ u = a ∨ u = b ∨ g.contains u = true := by
  unfold contains addEdge
  rw [Std.ExtTreeMap.contains_insertIfNew, Std.ExtTreeMap.contains_insert]
  simp only [Bool.or_eq_true, beq_iff_eq, Std.compare_eq_iff_eq]
  rw [or_left_comm, eq_comm, eq_comm (a := b)]

end Graph

end SymbolicPaths
