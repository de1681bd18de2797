import Std.Data.ExtTreeMap
import Std.Data.ExtTreeSet
import SymbolicPaths.Text.Hex

/-!
# Control-flow graphs

A `Graph` is a finite directed graph over block addresses. Nodes and successors are kept in
ascending order, and two graphs with the same nodes and edges are equal, however they were built.
The target of an edge is always a node, which the type records as `closed`.
-/

namespace SymbolicPaths

/-- A set of addresses, listed in ascending order. -/
abbrev AddressSet := Std.ExtTreeSet Address

/-- A finite directed graph over block addresses. -/
structure Graph where
  /-- The successors of every node. -/
  successorSets : Std.ExtTreeMap Address AddressSet
  /-- Edges lead to nodes. -/
  closed : ∀ {a : Address} {s : AddressSet} {b : Address},
    successorSets[a]? = some s → b ∈ s → b ∈ successorSets

namespace Graph

@[ext] theorem ext {g h : Graph} (e : g.successorSets = h.successorSets) : g = h := by
  cases g; cases h; simp_all

/-- The graph without nodes. -/
def empty : Graph where
  successorSets := ∅
  closed := by simp

instance : Inhabited Graph := ⟨empty⟩

/-- Makes `a` a node. A node that is already there keeps its edges. -/
def addNode (g : Graph) (a : Address) : Graph where
  successorSets := g.successorSets.insertIfNew a ∅
  closed := by
    intro c s b hs hb
    rw [Std.ExtTreeMap.getElem?_insertIfNew] at hs
    rw [Std.ExtTreeMap.mem_insertIfNew]
    split at hs
    · cases hs; simp at hb
    · exact Or.inr (g.closed hs hb)

/-- Adds an edge, and its two ends as nodes. -/
def addEdge (g : Graph) (source target : Address) : Graph where
  successorSets :=
    (g.successorSets.insert source ((g.successorSets.getD source ∅).insert target)).insertIfNew
      target ∅
  closed := by
    intro c s b hs hb
    rw [Std.ExtTreeMap.getElem?_insertIfNew] at hs
    rw [Std.ExtTreeMap.mem_insertIfNew, Std.ExtTreeMap.mem_insert]
    split at hs
    · cases hs; simp at hb
    · rw [Std.ExtTreeMap.getElem?_insert] at hs
      split at hs
      · cases hs
        rw [Std.ExtTreeSet.mem_insert] at hb
        rcases hb with hb | hb
        · exact Or.inl hb
        · rw [Std.ExtTreeMap.getD_eq_getD_getElem?] at hb
          cases h : g.successorSets[source]? with
          | none => simp [h] at hb
          | some t => exact Or.inr (Or.inr (g.closed h (by simpa [h] using hb)))
      · exact Or.inr (Or.inr (g.closed hs hb))

/-- Whether `a` is a node. -/
def contains (g : Graph) (a : Address) : Bool :=
  g.successorSets.contains a

/-- The targets of the edges that leave `a`, ascending. An address that is no node has none. -/
def successors (g : Graph) (a : Address) : List Address :=
  (g.successorSets.getD a ∅).toList

/-- Whether there is an edge from `source` to `target`. -/
def hasEdge (g : Graph) (source target : Address) : Bool :=
  (g.successorSets.getD source ∅).contains target

/-- The nodes, ascending. -/
def nodes (g : Graph) : List Address :=
  g.successorSets.keys

/-- The number of nodes. -/
def size (g : Graph) : Nat :=
  g.successorSets.size

/-- Whether the graph has no node. -/
def isEmpty (g : Graph) : Bool :=
  g.successorSets.isEmpty

/-- All edges, ascending by source and then by target. -/
def edges (g : Graph) : List (Address × Address) :=
  g.nodes.flatMap fun a => (g.successors a).map fun b => (a, b)

end Graph

end SymbolicPaths
