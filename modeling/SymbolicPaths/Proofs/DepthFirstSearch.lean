import Mathlib.Algebra.BigOperators.Group.List.Basic
import Mathlib.Algebra.Order.BigOperators.Group.List
import Mathlib.Algebra.Order.Ring.Nat
import Mathlib.Data.List.Chain
import Mathlib.Logic.Relation
import Mathlib.Order.WellFounded
import SymbolicPaths.LoopBound
import SymbolicPaths.Proofs.GraphLaws

/-!
# Back edges are a feedback set

The search that finds the back edges of a graph is correct (`LoopBound.backEdges_feedback`): it ends
from every root, every back edge closes a cycle, and the edges that are left have none.

The proof is invariant reasoning along the elementary steps of the search. `Search.Inv` has three
parts.

* The stack is a path: every open node is a successor of the one below it, open nodes are different,
  and they are exactly the nodes marked active. An edge to an active node therefore closes a cycle.
* Every edge of an open node is accounted for (`Search.Settled`): it is still to be looked at, or it
  is a back edge, or it leads to a node that is done or lies above on the stack.
* A done node is accessible along forward edges, that is, no infinite path of edges that are not
  back edges starts there. When a node is closed nothing lies above it, so that its forward edges
  lead to done nodes, and it is accessible itself.

Accessibility is kept when back edges are added, because this only takes forward edges away. When
the search is over all nodes are done, hence forward edges are well-founded
(`Graph.forward_wellFounded`).

The search ends because every step takes one unit of `Search.work`: an open node to close, an edge
to look at, or both for each node not yet met.
-/

namespace SymbolicPaths

open Relation

/-- An edge of `g` that is not among the edges of `back`. -/
def Graph.Forward (g back : Graph) (u v : Address) : Prop :=
  g.Edge u v ∧ ¬ back.Edge u v

namespace Search

variable {g : Graph} {s : Search}

/-- Whether a node is done. -/
def Done (marks : Std.ExtTreeMap Address Mark) (a : Address) : Prop :=
  marks[a]? = some .done

/-- Looking a mark up after one has been set. -/
theorem getElem?_insert_mark (marks : Std.ExtTreeMap Address Mark) (a v : Address) (m : Mark) :
    (marks.insert a m)[v]? = if v = a then some m else marks[v]? := by
  rw [Std.ExtTreeMap.getElem?_insert]
  simp only [Std.compare_eq_iff_eq, @eq_comm _ a v]

/-- Every edge that leaves a node of the stack is accounted for. The addresses `inner` lie above the
given part of the stack. -/
def Settled (g back : Graph) (marks : Std.ExtTreeMap Address Mark) :
    (inner : List Address) → (stack : List (Address × List Address)) → Prop
  | _, [] => True
  | inner, (node, rest) :: outer =>
    (∀ v, g.Edge node v → v ∈ rest ∨ back.Edge node v ∨ Done marks v ∨ v ∈ inner) ∧
      Settled g back marks (node :: inner) outer

/-- Accounts stay valid when there are more back edges, and when nodes above the stack are done. -/
theorem Settled.mono {back back' : Graph} {marks marks' : Std.ExtTreeMap Address Mark}
    (hback : ∀ u v, back.Edge u v → back'.Edge u v) {stack : List (Address × List Address)} :
    ∀ {inner inner' : List Address},
      (∀ v, Done marks v ∨ v ∈ inner → Done marks' v ∨ v ∈ inner') →
      Settled g back marks inner stack → Settled g back' marks' inner' stack := by
  induction stack with
  | nil => intro inner inner' _ _; trivial
  | cons f outer ih =>
    obtain ⟨node, rest⟩ := f
    intro inner inner' hv h
    refine ⟨fun v hedge => ?_, ih (fun v hd => ?_) h.2⟩
    · rcases h.1 v hedge with hrest | hb | hd
      · exact Or.inl hrest
      · exact Or.inr (Or.inl (hback _ _ hb))
      · exact Or.inr (Or.inr (hv v hd))
    · -- the node of this frame lies above the next one on either side
      rcases hd with hd | hd
      · exact (hv v (Or.inl hd)).imp_right (List.mem_cons_of_mem _)
      · rcases List.mem_cons.mp hd with rfl | hd
        · exact Or.inr List.mem_cons_self
        · exact (hv v (Or.inr hd)).imp_right (List.mem_cons_of_mem _)

/-- The invariant of the search. The nodes `inner` are about to be put on the stack. -/
structure Inv (g : Graph) (inner : List Address) (s : Search) : Prop where
  /-- The stack is a path, innermost node first. -/
  path : s.stack.IsChain fun inner outer => g.Edge outer.1 inner.1
  /-- No node is open twice. -/
  nodup : (s.stack.map Prod.fst).Nodup
  /-- The open nodes are those marked active. -/
  active_iff : ∀ a, s.marks[a]? = some .active ↔ a ∈ s.stack.map Prod.fst
  /-- What is still to be looked at are successors. -/
  pending : ∀ f ∈ s.stack, ∀ v ∈ f.2, g.Edge f.1 v
  /-- The edges of open nodes are accounted for. -/
  settled : Settled g s.back s.marks inner s.stack
  /-- Back edges close cycles. -/
  closes : ∀ u v, s.back.Edge u v → g.Edge u v ∧ ReflTransGen g.Edge v u
  /-- No infinite forward path starts at a node that is done. -/
  acc : ∀ u, Done s.marks u → Acc (fun v u => g.Forward s.back u v) u

theorem Inv.start (g : Graph) : Inv g [] Search.start where
  path := List.isChain_nil
  nodup := List.nodup_nil
  active_iff := by simp [Search.start]
  pending := by simp [Search.start]
  settled := trivial
  closes := by simp [Search.start]
  acc := by simp [Search.start, Done]

/-! ### Elementary steps keep the invariant -/

/-- Every open node leads to the innermost one. -/
theorem reaches_innermost {node : Address} {rest : List Address}
    {outer : List (Address × List Address)}
    (hpath : ((node, rest) :: outer).IsChain fun inner outer => g.Edge outer.1 inner.1) :
    ∀ a ∈ ((node, rest) :: outer).map Prod.fst, ReflTransGen g.Edge a node := by
  induction outer generalizing node rest with
  | nil =>
    intro a ha
    obtain rfl : a = node := by simpa using ha
    exact ReflTransGen.refl
  | cons f outer ih =>
    intro a ha
    rw [List.isChain_cons_cons] at hpath
    rcases List.mem_cons.mp ha with rfl | ha
    · exact ReflTransGen.refl
    · exact (ih hpath.2 a ha).tail hpath.1

/-- **Entering a node.** It accounts for the edges that lead to it from the stack below. -/
theorem Inv.enter {a : Address} (hI : Inv g [a] s) (hnew : s.marks[a]? = none)
    (hedge : ∀ f ∈ s.stack.head?, g.Edge f.1 a) : Inv g [] (s.enter g a) := by
  have hout : a ∉ s.stack.map Prod.fst := by
    intro ha
    rw [← hI.active_iff, hnew] at ha
    simp at ha
  have hdone : ∀ v, Done (s.marks.insert a .active) v ↔ Done s.marks v := by
    intro v
    unfold Done
    rw [getElem?_insert_mark]
    split
    · next hv => simp [hv, hnew]
    · rfl
  refine { path := ?path, nodup := ?nodup, active_iff := ?active, pending := ?pending,
           settled := ⟨?own, ?below⟩, closes := hI.closes, acc := ?acc }
  case path => exact List.isChain_cons.mpr ⟨hedge, hI.path⟩
  case nodup => exact List.nodup_cons.mpr ⟨hout, hI.nodup⟩
  case active =>
    intro v
    change (s.marks.insert a .active)[v]? = some .active ↔ v ∈ a :: s.stack.map Prod.fst
    rw [getElem?_insert_mark, List.mem_cons, ← hI.active_iff]
    split
    · next hv => simp [hv]
    · next hv => exact (or_iff_right hv).symm
  case pending =>
    intro f hf v hv
    rcases List.mem_cons.mp hf with rfl | hf
    · exact Graph.mem_successors.mp hv
    · exact hI.pending f hf v hv
  case own => exact fun v hv => Or.inl (Graph.mem_successors.mpr hv)
  case below => exact hI.settled.mono (fun _ _ h => h) fun v hv => hv.imp_left (hdone v).mpr
  case acc => exact fun u hu => hI.acc u ((hdone u).mp hu)

/-- **Passing a successor.** The innermost node need not look at `next` any more: the edge is a back
edge now, or `next` is done or about to be entered. -/
theorem Inv.pass {back : Graph} {node next : Address} {rest inner : List Address}
    {outer : List (Address × List Address)} (hI : Inv g [] s)
    (hstack : s.stack = (node, next :: rest) :: outer)
    (hback : ∀ u v, s.back.Edge u v → back.Edge u v)
    (hcloses : ∀ u v, back.Edge u v → g.Edge u v ∧ ReflTransGen g.Edge v u)
    (hnext : back.Edge node next ∨ Done s.marks next ∨ next ∈ inner) :
    Inv g inner { s with stack := (node, rest) :: outer, back := back } := by
  have hpath := hI.path
  have hsettled := hI.settled
  rw [hstack] at hpath hsettled
  have hnodes : ((node, rest) :: outer).map Prod.fst = s.stack.map Prod.fst := by rw [hstack]; rfl
  refine { path := ?path, nodup := hnodes ▸ hI.nodup,
           active_iff := fun v => hnodes ▸ hI.active_iff v,
           pending := ?pending, settled := ⟨?own, ?below⟩, closes := hcloses, acc := ?acc }
  case path => exact List.isChain_cons.mpr (List.isChain_cons.mp hpath)
  case pending =>
    intro f hf v hv
    rcases List.mem_cons.mp hf with rfl | hf
    · exact hI.pending (node, next :: rest) (hstack ▸ List.mem_cons_self) v
        (List.mem_cons_of_mem _ hv)
    · exact hI.pending f (hstack ▸ List.mem_cons_of_mem _ hf) v hv
  case own =>
    intro v hv
    rcases hsettled.1 v hv with h | h | h | h
    · rcases List.mem_cons.mp h with rfl | h
      · exact Or.inr hnext
      · exact Or.inl h
    · exact Or.inr (Or.inl (hback _ _ h))
    · exact Or.inr (Or.inr (Or.inl h))
    · exact absurd h List.not_mem_nil
  case below =>
    refine hsettled.2.mono hback fun v hv => hv.imp_right fun h => ?_
    exact List.mem_cons.mpr (Or.inl (List.mem_singleton.mp h))
  case acc =>
    -- more back edges leave fewer forward edges
    intro u hu
    exact Subrelation.accessible (fun h => ⟨h.1, fun hb => h.2 (hback _ _ hb)⟩) (hI.acc u hu)

/-- **Closing a node.** Nothing is left to look at and nothing lies above, so that all its forward
edges lead to done nodes. -/
theorem Inv.close {node : Address} {outer : List (Address × List Address)} (hI : Inv g [] s)
    (hstack : s.stack = (node, []) :: outer) :
    Inv g [] { s with stack := outer, marks := s.marks.insert node .done } := by
  have hpath := hI.path
  have hnodup := hI.nodup
  have hsettled := hI.settled
  have hactive := hI.active_iff
  rw [hstack] at hpath hnodup hsettled
  simp only [hstack] at hactive
  obtain ⟨hnode, hnodup⟩ := List.nodup_cons.mp hnodup
  have hdone : ∀ v, Done (s.marks.insert node .done) v ↔ v = node ∨ Done s.marks v := by
    intro v
    unfold Done
    rw [getElem?_insert_mark]
    split
    · next hv => simp [hv]
    · next hv => exact (or_iff_right hv).symm
  refine { path := hpath.tail, nodup := hnodup, active_iff := ?active, pending := ?pending,
           settled := ?settled, closes := hI.closes, acc := ?acc }
  case active =>
    intro v
    change (s.marks.insert node .done)[v]? = some .active ↔ _
    rw [getElem?_insert_mark]
    split
    · next hv =>
      subst hv
      simpa using hnode
    · next hv =>
      rw [hactive, List.map_cons, List.mem_cons]
      exact or_iff_right hv
  case pending => exact fun f hf => hI.pending f (hstack ▸ List.mem_cons_of_mem _ hf)
  case settled =>
    -- the node lay above the rest of the stack, and now it is done
    refine hsettled.2.mono (fun _ _ h => h) fun v hv => Or.inl ((hdone v).mpr ?_)
    exact hv.symm.imp_left List.mem_singleton.mp
  case acc =>
    intro u hu
    rcases (hdone u).mp hu with rfl | hu
    · -- the account of the node itself: only the done successors are left
      refine Acc.intro u fun v hv => ?_
      rcases hsettled.1 v hv.1 with h | h | h | h
      · exact absurd h List.not_mem_nil
      · exact absurd h hv.2
      · exact hI.acc v h
      · exact absurd h List.not_mem_nil
    · exact hI.acc u hu

/-- **Invariant preservation.** One elementary step keeps the invariant. -/
theorem Inv.step (hI : Inv g [] s) : Inv g [] (s.step g) := by
  unfold Search.step
  split
  · exact hI
  · next node outer hstack => exact hI.close hstack
  · next node next rest outer hstack =>
    have hedge : g.Edge node next :=
      hI.pending (node, next :: rest) (hstack ▸ List.mem_cons_self) next List.mem_cons_self
    dsimp only
    split
    · -- an edge to an open node closes a cycle through the stack
      next hmark =>
      refine hI.pass hstack (fun u v h => Graph.edge_addEdge.mpr (Or.inr h)) ?_
        (Or.inl (Graph.edge_addEdge.mpr (Or.inl ⟨rfl, rfl⟩)))
      intro u v h
      rcases Graph.edge_addEdge.mp h with ⟨rfl, rfl⟩ | h
      · have hopen := (hI.active_iff v).mp hmark
        have hpath := hI.path
        rw [hstack] at hopen hpath
        exact ⟨hedge, reaches_innermost hpath v hopen⟩
      · exact hI.closes u v h
    · next hmark => exact hI.pass hstack (fun _ _ h => h) hI.closes (Or.inr (Or.inl hmark))
    · next hmark =>
      refine (hI.pass hstack (fun _ _ h => h) hI.closes (Or.inr (Or.inr ?_))).enter hmark ?_
      · exact List.mem_singleton_self next
      · intro f hf
        obtain rfl : (node, rest) = f := Option.some.inj hf
        exact hedge

/-! ### The search ends -/

/-- What a node costs that has not been met: closing it, and looking at each of its edges. -/
def debt (g : Graph) (marks : Std.ExtTreeMap Address Mark) (a : Address) : Nat :=
  if a ∈ marks then 0 else (g.successors a).length + 1

/-- The steps that are left to do. -/
def work (g : Graph) (s : Search) : Nat :=
  (s.stack.map fun f => f.2.length + 1).sum + (g.nodes.map (debt g s.marks)).sum

/-- Marking a node pays its debt, and no other one. -/
theorem sum_debt_insert (g : Graph) (marks : Std.ExtTreeMap Address Mark) (a : Address) (m : Mark) :
    (g.nodes.map (debt g (marks.insert a m))).sum + (if a ∈ g.nodes then debt g marks a else 0) =
      (g.nodes.map (debt g marks)).sum := by
  have hother : ∀ v ≠ a, debt g (marks.insert a m) v = debt g marks v := by
    intro v hv
    simp [debt, Std.ExtTreeMap.mem_insert, hv.symm]
  split
  · next ha =>
    have hself : debt g (marks.insert a m) a = 0 := by simp [debt]
    have hrest : (g.nodes.erase a).map (debt g (marks.insert a m)) =
        (g.nodes.erase a).map (debt g marks) := by
      refine List.map_congr_left fun v hv => hother v ?_
      rintro rfl
      exact g.nodes_nodup.not_mem_erase hv
    rw [← List.sum_map_erase _ ha, ← List.sum_map_erase _ ha, hself, hrest]
    omega
  · next ha =>
    rw [List.map_congr_left fun v hv => hother v (fun h => ha (h ▸ hv)), Nat.add_zero]

/-- **Progress.** A step takes one unit of work off. -/
theorem Inv.work_step (hI : Inv g [] s) (hstack : s.stack ≠ []) :
    (s.step g).work g + 1 = s.work g := by
  unfold Search.step
  split
  · next h => exact absurd h hstack
  · next node outer h =>
    -- the node closed was met before, so that its debt is paid already
    have hmark : node ∈ s.marks := by
      rw [Std.ExtTreeMap.mem_iff_isSome_getElem?, (hI.active_iff node).mpr (by simp [h])]
      rfl
    have hpaid := sum_debt_insert g s.marks node .done
    rw [show debt g s.marks node = 0 from if_pos hmark, ite_self, Nat.add_zero] at hpaid
    simp only [work, h, hpaid, List.map_cons, List.sum_cons, List.length_nil]
    omega
  · next node next rest outer h =>
    have hnext : next ∈ g.nodes :=
      (hI.pending (node, next :: rest) (h ▸ List.mem_cons_self) next List.mem_cons_self).target_mem
    dsimp only
    split
    · simp only [work, h, List.map_cons, List.sum_cons, List.length_cons]
      omega
    · simp only [work, h, List.map_cons, List.sum_cons, List.length_cons]
      omega
    · -- opening `next` turns its debt into a frame of the stack
      next hmark =>
      have hnew : next ∉ s.marks := by
        rw [Std.ExtTreeMap.mem_iff_isSome_getElem?, hmark]
        simp
      have hpaid := sum_debt_insert g s.marks next .active
      rw [if_pos hnext, show debt g s.marks next = _ from if_neg hnew] at hpaid
      simp only [work, Search.enter, h, List.map_cons, List.sum_cons, List.length_cons]
      omega

/-- Running is repeating the elementary step, which does nothing once the stack is empty. -/
theorem run_eq_iterate (g : Graph) (n : Nat) (s : Search) : s.run g n = (step g)^[n] s := by
  induction n generalizing s with
  | zero => rfl
  | succ n ih =>
    rw [run, Function.iterate_succ_apply]
    split
    · next h =>
      have hfixed : step g s = s := by rw [step, List.isEmpty_iff.mp h]
      rw [hfixed, Function.iterate_fixed hfixed]
    · exact ih _

theorem Inv.run (hI : Inv g [] s) (n : Nat) : Inv g [] (s.run g n) := by
  induction n generalizing s with
  | zero => exact hI
  | succ n ih =>
    rw [Search.run]
    split
    · exact hI
    · exact ih hI.step

/-- **Termination.** As many steps as there is work empty the stack. -/
theorem Inv.run_ends (hI : Inv g [] s) {n : Nat} (hn : s.work g ≤ n) : (s.run g n).stack = [] := by
  induction n generalizing s with
  | zero =>
    cases h : s.stack with
    | nil => exact h
    | cons f outer =>
      simp only [work, h, List.map_cons, List.sum_cons] at hn
      omega
  | succ n ih =>
    rw [Search.run]
    split
    · next h => exact List.isEmpty_iff.mp h
    · next h =>
      have hwork := hI.work_step (by simpa using h)
      exact ih hI.step (by omega)

/-- All nodes together owe one step for each node and each edge. -/
theorem sum_debt_le (g : Graph) (marks : Std.ExtTreeMap Address Mark) :
    (g.nodes.map (debt g marks)).sum ≤ g.size + g.edges.length := by
  calc (g.nodes.map (debt g marks)).sum
      ≤ (g.nodes.map fun a => (g.successors a).length + 1).sum := by
        refine List.sum_le_sum fun a _ => ?_
        unfold debt
        split <;> omega
    _ = g.size + g.edges.length := by
        rw [List.sum_map_add]
        simp [Graph.edges, List.length_flatMap, Nat.add_comm]

/-- The work of a search that has just entered its root is bounded by the length granted to it. -/
theorem work_enter_le (hstack : s.stack = []) (root : Address) (hnew : root ∉ s.marks) :
    (s.enter g root).work g ≤ g.searchLength := by
  have hpaid := sum_debt_insert g s.marks root .active
  have htotal := sum_debt_le g s.marks
  simp only [work, enter, hstack, List.map_cons, List.map_nil, List.sum_cons, List.sum_nil,
    Graph.searchLength]
  by_cases hroot : root ∈ g.nodes
  · rw [if_pos hroot, show debt g s.marks root = _ from if_neg hnew] at hpaid
    omega
  · -- a root that is no node has no successors
    have hnone : g.successors root = [] := by
      refine List.eq_nil_iff_forall_not_mem.mpr fun v hv => hroot ?_
      exact (Graph.mem_successors.mp hv).source_mem
    rw [if_neg hroot] at hpaid
    simp only [hnone, List.length_nil]
    omega

/-! ### Searching from all roots -/

/-- Between two searches the stack is empty, so that every node met is done. -/
theorem Inv.done_of_mem (hI : Inv g [] s) (hstack : s.stack = []) {a : Address}
    (ha : a ∈ s.marks) : Done s.marks a := by
  rw [Std.ExtTreeMap.mem_iff_isSome_getElem?, Option.isSome_iff_exists] at ha
  obtain ⟨m, hm⟩ := ha
  cases m with
  | done => exact hm
  | active =>
    rw [hI.active_iff, hstack] at hm
    exact absurd hm List.not_mem_nil

/-- Nothing that has been met is forgotten. -/
theorem mem_marks_step {a : Address} (ha : a ∈ s.marks) : a ∈ (s.step g).marks := by
  unfold step
  split
  · exact ha
  · exact Std.ExtTreeMap.mem_insert.mpr (Or.inr ha)
  · dsimp only
    split
    · exact ha
    · exact ha
    · exact Std.ExtTreeMap.mem_insert.mpr (Or.inr ha)

theorem mem_marks_run {a : Address} (n : Nat) (ha : a ∈ s.marks) : a ∈ (s.run g n).marks := by
  induction n generalizing s with
  | zero => exact ha
  | succ n ih =>
    rw [run]
    split
    · exact ha
    · exact ih (mem_marks_step ha)

end Search

namespace Graph

open Search

variable {g : Graph} {s : Search}

theorem mem_marks_searchFrom {a : Address} (root : Address) (ha : a ∈ s.marks) :
    a ∈ (g.searchFrom s root).marks := by
  unfold searchFrom
  split
  · exact ha
  · exact mem_marks_run _ (Std.ExtTreeMap.mem_insert.mpr (Or.inr ha))

theorem root_mem_marks_searchFrom (root : Address) : root ∈ (g.searchFrom s root).marks := by
  unfold searchFrom
  split
  · next h => exact Std.ExtTreeMap.contains_iff_mem.mp h
  · exact mem_marks_run _ Std.ExtTreeMap.mem_insert_self

/-- A search between two roots: the invariant holds and no node is open. -/
def Resting (g : Graph) (s : Search) : Prop :=
  Inv g [] s ∧ s.stack = []

/-- A search that rests can be entered at a root that it has not met. -/
theorem Resting.enter (hs : g.Resting s) {root : Address} (hnew : root ∉ s.marks) :
    Inv g [] (s.enter g root) := by
  obtain ⟨hI, hstack⟩ := hs
  have hsettled : Settled g s.back s.marks [root] s.stack := by
    rw [hstack]
    trivial
  have hI' : Inv g [root] s := { hI with settled := hsettled }
  refine hI'.enter ?_ (by simp [hstack])
  rwa [Std.ExtTreeMap.mem_iff_isSome_getElem?, Bool.not_eq_true, Option.isSome_eq_false_iff,
    Option.isNone_iff_eq_none] at hnew

theorem Resting.searchFrom (hs : g.Resting s) (root : Address) :
    g.Resting (g.searchFrom s root) := by
  unfold Graph.searchFrom
  split
  · exact hs
  · next h =>
    have hnew : root ∉ s.marks := fun hm => h (Std.ExtTreeMap.contains_iff_mem.mpr hm)
    have hI := hs.enter hnew
    exact ⟨hI.run _, hI.run_ends (work_enter_le hs.2 root hnew)⟩

theorem Resting.foldl (hs : g.Resting s) (roots : List Address) :
    g.Resting (roots.foldl g.searchFrom s) := by
  induction roots generalizing s with
  | nil => exact hs
  | cons root roots ih => exact ih (hs.searchFrom root)

theorem resting_start (g : Graph) : g.Resting Search.start :=
  ⟨Inv.start g, rfl⟩

/-- Searching from some roots meets each of them. -/
theorem mem_marks_foldl {roots : List Address} :
    ∀ {s : Search} {a : Address}, a ∈ roots ∨ a ∈ s.marks →
      a ∈ (roots.foldl g.searchFrom s).marks := by
  induction roots with
  | nil => exact fun h => h.resolve_left List.not_mem_nil
  | cons root roots ih =>
    intro s a h
    rcases h with h | h
    · rcases List.mem_cons.mp h with rfl | h
      · exact ih (Or.inr (root_mem_marks_searchFrom _))
      · exact ih (Or.inl h)
    · exact ih (Or.inr (mem_marks_searchFrom root h))

/-- Back edges are edges, and they close cycles. -/
theorem edge_of_backEdges {roots : List Address} {u v : Address}
    (h : (g.backEdges roots).Edge u v) : g.Edge u v ∧ ReflTransGen g.Edge v u :=
  ((g.resting_start).foldl (roots ++ g.nodes)).1.closes u v h

/-- **Forward edges are well-founded.** There is no infinite path without back edges. -/
theorem forward_wellFounded (g : Graph) (roots : List Address) :
    WellFounded fun v u => g.Forward (g.backEdges roots) u v := by
  refine ⟨fun u => ?_⟩
  have hrest := (g.resting_start).foldl (roots ++ g.nodes)
  by_cases hu : u ∈ g.nodes
  · have hmet : u ∈ ((roots ++ g.nodes).foldl g.searchFrom Search.start).marks :=
      mem_marks_foldl (Or.inl (List.mem_append_right _ hu))
    exact hrest.1.acc u (hrest.1.done_of_mem hrest.2 hmet)
  · exact Acc.intro u fun v hv => absurd hv.1.source_mem hu

end Graph

/-- **The back edges are a feedback set made of cycle edges.** After the searches from any roots
`before`, the search from a root that these have not met ends within finitely many elementary steps,
and its result is the state at its end. Every back edge is an edge, and a path leads from its target
to its source. Without the back edges there is no cycle. -/
theorem LoopBound.backEdges_feedback (g : Graph) (roots : List Address) (bound : UInt32) :
    (∀ (before : List Address) (root : Address),
      (before.foldl g.searchFrom Search.start).marks.contains root = false →
      ∃ n ≤ g.searchLength, ∃ final : Search,
        final = (Search.step g)^[n] ((before.foldl g.searchFrom Search.start).enter g root) ∧
        final.stack = [] ∧
        g.searchFrom (before.foldl g.searchFrom Search.start) root = final) ∧
    (∀ u v, (LoopBound.ofGraph g roots bound).isBackEdge u v = true →
      g.hasEdge u v = true ∧ ReflTransGen (fun a b => g.hasEdge a b = true) v u) ∧
    (∀ u, ¬ TransGen (fun a b => g.hasEdge a b = true ∧
      (LoopBound.ofGraph g roots bound).isBackEdge a b = false) u u) := by
  refine ⟨fun before root hnew => ?_, fun u v h => Graph.edge_of_backEdges h, fun u hu => ?_⟩
  · have hrest := (g.resting_start).foldl before
    have hroot : root ∉ (before.foldl g.searchFrom Search.start).marks := by
      rw [← Std.ExtTreeMap.contains_iff_mem, hnew]
      simp
    refine ⟨g.searchLength, le_rfl, _, rfl, ?_, ?_⟩
    · rw [← Search.run_eq_iterate]
      exact (hrest.enter hroot).run_ends (Search.work_enter_le hrest.2 root hroot)
    · rw [Graph.searchFrom, hnew, ← Search.run_eq_iterate]
      rfl
  · have hcycle : TransGen (fun v u => g.Forward (g.backEdges roots) u v) u u := by
      refine transGen_swap.mp (TransGen.mono (fun a b hab => ?_) u u hu)
      exact ⟨hab.1, Graph.hasEdge_eq_false_iff.mp hab.2⟩
    exact (g.forward_wellFounded roots).transGen.asymmetric _ _ hcycle hcycle

end SymbolicPaths
