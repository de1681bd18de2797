import Mathlib.Data.List.Forall2
import Mathlib.Data.List.Induction
import SymbolicPaths.Proofs.BlockGraph

/-!
# Laws of control-flow recovery

What a recovered program consists of, in terms of the functions that it was recovered from. Whether
an address is a node or has a block, and whether there is an edge between two addresses, is decided
by single functions: adding a function keeps what is there and adds what the function brings
(`mem_blocks_add`, `Graph.contains_addFlows`, `Graph.edge_addFlows`), and what holds of one addition
holds of all of them (`ofDecoded_iff`).

The graph, the block map and the list of functions are filled independently of each other. That they
fit together is the invariant `Recovered.Consistent`, which every addition keeps (`Consistent.add`).
-/

namespace SymbolicPaths

namespace Recovered

variable {r : Recovered} {d : DecodedFunction} {decoded : List DecodedFunction} {a u v : Address}

theorem ofDecoded_concat (decoded : List DecodedFunction) (d : DecodedFunction) :
    ofDecoded (decoded ++ [d]) = (ofDecoded decoded).add d := by
  rw [ofDecoded, List.foldl_append]
  rfl

/-- What every addition brings about in the same way holds of a recovered program if one of its
functions brings it about. -/
theorem ofDecoded_iff {P : Recovered → Prop} {brings : DecodedFunction → Prop} (hempty : ¬ P empty)
    (hadd : ∀ r d, P (r.add d) ↔ P r ∨ brings d) (decoded : List DecodedFunction) :
    P (ofDecoded decoded) ↔ ∃ d ∈ decoded, brings d := by
  induction decoded using List.reverseRecOn with
  | nil =>
    constructor
    · exact fun h => absurd h hempty
    · rintro ⟨d, hd, -⟩
      cases hd
  | append_singleton decoded d ih =>
    rw [ofDecoded_concat, hadd, ih]
    constructor
    · rintro (⟨d', hd', h⟩ | h)
      · exact ⟨d', List.mem_append_left _ hd', h⟩
      · exact ⟨d, List.mem_append_right _ (List.mem_singleton_self d), h⟩
    · rintro ⟨d', hd', h⟩
      rcases List.mem_append.mp hd' with hd' | hd'
      · exact Or.inl ⟨d', hd', h⟩
      · exact Or.inr (List.mem_singleton.mp hd' ▸ h)

/-! ### Graph and blocks -/

theorem mem_foldl_insert_block (rs : List Run) (blocks : Std.ExtTreeMap Address Block) :
    a ∈ rs.foldl (fun m b => m.insert b.address b.block) blocks ↔
    a ∈ blocks ∨ a ∈ rs.map (·.address) := by
  induction rs generalizing blocks with
  | nil => simp
  | cons s rs ih =>
    rw [List.foldl_cons, ih, Std.ExtTreeMap.mem_insert, Std.compare_eq_iff_eq, List.map_cons,
      List.mem_cons, eq_comm, or_comm (a := a = s.address), or_assoc]

theorem mem_blocks_add : a ∈ (r.add d).blocks ↔ a ∈ r.blocks ∨ a ∈ blockStarts d.flows :=
  mem_foldl_insert_block (runs d.flows) r.blocks

theorem contains_ofDecoded :
    (ofDecoded decoded).graph.contains a = true ↔ ∃ d ∈ decoded, a ∈ blockStarts d.flows := by
  refine ofDecoded_iff (P := fun r => r.graph.contains a = true) ?_ (fun r d => ?_) decoded
  · simp [empty]
  · exact Graph.contains_addFlows

theorem edge_ofDecoded :
    (ofDecoded decoded).graph.Edge u v ↔
      ∃ d ∈ decoded, RunEdge (instructionSet d.flows) (runs d.flows) u v := by
  refine ofDecoded_iff (P := fun r => r.graph.Edge u v) ?_ (fun r d => ?_) decoded
  · exact Graph.not_edge_empty
  · exact Graph.edge_addFlows

/-! ### Functions -/

/-- The functions are the decoded ones, in order, each as some graph has shown it. -/
theorem functions_ofDecoded (decoded : List DecodedFunction) :
    List.Forall₂ (fun d f => ∃ g, f = d.function g) decoded (ofDecoded decoded).functions := by
  induction decoded using List.reverseRecOn with
  | nil => exact .nil
  | append_singleton decoded d ih =>
    rw [ofDecoded_concat]
    exact List.rel_append ih (.cons ⟨_, rfl⟩ .nil)

/-! ### Consistency -/

/-- The parts of a recovered program fit together: the nodes of the graph are the addresses with a
block, and the blocks that the functions list are among them. -/
structure Consistent (r : Recovered) : Prop where
  mem_blocks_iff : ∀ a, a ∈ r.blocks ↔ r.graph.contains a = true
  contains_of_mem : ∀ f ∈ r.functions, ∀ a ∈ f.blocks, r.graph.contains a = true

theorem consistent_empty : empty.Consistent where
  mem_blocks_iff a := by simp [empty]
  contains_of_mem f hf := by cases hf

/-- **Adding a function keeps a program consistent.** Blocks and nodes are added for the same
addresses, and none is taken away. -/
theorem Consistent.add (h : r.Consistent) (d : DecodedFunction) : (r.add d).Consistent where
  mem_blocks_iff a := by
    rw [mem_blocks_add, h.mem_blocks_iff]
    exact Graph.contains_addFlows.symm
  contains_of_mem f hf a ha := by
    refine Graph.contains_addFlows.mpr ?_
    rcases List.mem_append.mp hf with hf | hf
    · exact Or.inl (h.contains_of_mem f hf a ha)
    · obtain rfl := List.mem_singleton.mp hf
      exact Or.inr ha

theorem consistent_ofDecoded (decoded : List DecodedFunction) : (ofDecoded decoded).Consistent := by
  induction decoded using List.reverseRecOn with
  | nil => exact consistent_empty
  | append_singleton decoded d ih =>
    rw [ofDecoded_concat]
    exact ih.add d

end Recovered

end SymbolicPaths
