import Mathlib.Data.List.Chain
import Mathlib.Data.List.Flatten
import Mathlib.Data.List.Lex
import SymbolicPaths.Proofs.GraphLaws
import SymbolicPaths.Proofs.Rounds

/-!
# The control-flow walker

The states of the walker are determined by where they have been: an active state stands for a walk
of the graph (`WalkState.ofWalk`), and a halted one for a walk that cannot go on
(`WalkState.ended`). In these terms a round replaces every walk by its extensions that do not spin
and sets those without a successor aside (`Stashes.active_next_walker`,
`Stashes.deadended_next_walker`).

Extending walks keeps their order (`Graph.pairwise_lex_extensions`): if walks of one length are
listed in lexicographic order, then so are their extensions, because successors are listed in
ascending order.
-/

namespace SymbolicPaths

open SymbolicState

/-! ### States and walks -/

/-- The block at the end of a walk. A walk is never empty. -/
def lastBlock (w : List Address) : Address :=
  w.getLastD 0

@[simp] theorem lastBlock_append (w : List Address) (b : Address) : lastBlock (w ++ [b]) = b := by
  simp [lastBlock]

theorem getLast?_eq_lastBlock {w : List Address} (hw : w ≠ []) :
    w.getLast? = some (lastBlock w) := by
  rw [lastBlock, List.getLastD_eq_getLast?, List.getLast?_eq_some_getLast hw]
  rfl

theorem getLast?_of_head? {w : List Address} {a : Address} (h : w.head? = some a) :
    w.getLast? = some (lastBlock w) :=
  getLast?_eq_lastBlock (List.ne_nil_of_mem (List.mem_of_head? h))

theorem dropLast_append_lastBlock {w : List Address} (hw : w ≠ []) :
    w.dropLast ++ [lastBlock w] = w :=
  List.dropLast_append_getLast? _ (getLast?_eq_lastBlock hw)

/-- A walk goes on along an edge from its last block. -/
theorem isChain_append_singleton {r : Address → Address → Prop} {w : List Address} {b : Address}
    (hw : w ≠ []) : (w ++ [b]).IsChain r ↔ w.IsChain r ∧ r (lastBlock w) b := by
  rw [List.isChain_append, getLast?_eq_lastBlock hw]
  simp

/-- The state of the walker at the end of a walk, before it executes the last block. -/
def WalkState.ofWalk (w : List Address) : WalkState :=
  ⟨lastBlock w, w.dropLast, false⟩

/-- The state of the walker after a walk that cannot go on. -/
def WalkState.ended (w : List Address) : WalkState :=
  ⟨lastBlock w, w, true⟩

namespace WalkState

@[simp] theorem halted_ofWalk (w : List Address) : SymbolicState.halted (ofWalk w) = false := rfl

@[simp] theorem walk_ofWalk {w : List Address} (hw : w ≠ []) : walk (ofWalk w) = w :=
  dropLast_append_lastBlock hw

theorem ofWalk_append (w : List Address) (b : Address) : ofWalk (w ++ [b]) = ⟨b, w, false⟩ := by
  simp [ofWalk]

end WalkState

/-- Going through a list without the elements that contribute nothing. -/
theorem flatMap_ite {α β : Type} (p : α → Bool) (f : α → List β) (as : List α) :
    (as.flatMap fun a => if p a then f a else []) = (as.filter p).flatMap f := by
  induction as with
  | nil => rfl
  | cons a as ih =>
    rw [List.flatMap_cons, List.filter_cons, ih]
    split <;> rfl

namespace Graph

open WalkState

variable {g : Graph} {l : LoopBound} {w : List Address}

/-- Whether a walk cannot go on. -/
def isComplete (g : Graph) (w : List Address) : Bool :=
  (g.successors (lastBlock w)).isEmpty

theorem isComplete_iff : g.isComplete w = true ↔ g.successors (lastBlock w) = [] :=
  List.isEmpty_iff

/-- The walks that go on from a walk by one block and do not spin. -/
def extensions (g : Graph) (l : LoopBound) (w : List Address) : List (List Address) :=
  ((g.successors (lastBlock w)).map fun b => w ++ [b]).filter fun w => !l.isSpinning w

theorem mem_extensions {v : List Address} :
    v ∈ g.extensions l w ↔ ∃ b, g.Edge (lastBlock w) b ∧ v = w ++ [b] ∧ l.isSpinning v = false := by
  simp only [extensions, List.mem_filter, List.mem_map, mem_successors, Bool.not_eq_true']
  constructor
  · rintro ⟨⟨b, hb, rfl⟩, hspin⟩
    exact ⟨b, hb, rfl, hspin⟩
  · rintro ⟨b, hb, rfl, hspin⟩
    exact ⟨⟨b, hb, rfl⟩, hspin⟩

theorem walkStep_ofWalk (hw : w ≠ []) :
    g.walkStep (ofWalk w) =
      if g.isComplete w then [ended w]
      else (g.successors (lastBlock w)).map fun b => ofWalk (w ++ [b]) := by
  have haddress : (ofWalk w).address = lastBlock w := rfl
  have hhistory : (ofWalk w).history ++ [lastBlock w] = w := walk_ofWalk hw
  unfold walkStep isComplete
  simp only [haddress, hhistory, ofWalk_append]
  cases g.successors (lastBlock w) with
  | nil => rfl
  | cons b targets => rfl

theorem goesOn_ofWalk_append (w : List Address) (b : Address) :
    Stashes.goesOn l (ofWalk (w ++ [b])) = !l.isSpinning (w ++ [b]) := by
  rw [Stashes.goesOn, halted_ofWalk, walk_ofWalk (by simp)]
  rfl

theorem active_added_ofWalk (hw : w ≠ []) :
    (Stashes.added l (ofWalk w) (g.walkStep (ofWalk w))).active =
      (g.extensions l w).map ofWalk := by
  rw [walkStep_ofWalk hw]
  unfold isComplete extensions
  cases g.successors (lastBlock w) with
  | nil => rfl
  | cons b targets =>
    -- a successor of the walker never halts at once, so that only spinning ones are sorted out
    change ((b :: targets).map fun b => ofWalk (w ++ [b])).filter (Stashes.goesOn l) = _
    rw [List.filter_map, List.filter_map, List.map_map]
    exact congrArg _ (List.filter_congr fun b _ => goesOn_ofWalk_append w b)

theorem deadended_added_ofWalk (hw : w ≠ []) :
    (Stashes.added l (ofWalk w) (g.walkStep (ofWalk w))).deadended =
      if g.isComplete w then [ended w] else [] := by
  rw [walkStep_ofWalk hw]
  unfold isComplete
  cases g.successors (lastBlock w) with
  | nil => rfl
  | cons b targets => simp [Stashes.added, Stashes.sorted]

/-! ### The order of walks -/

/-- Walks of one length are ordered by where they first differ, however they go on. -/
theorem lex_append_append {u v : List Address} (h : List.Lex (· < ·) u v)
    (hlength : u.length = v.length) (x y : List Address) :
    List.Lex (· < ·) (u ++ x) (v ++ y) := by
  induction h with
  | nil => cases hlength
  | cons _ ih => exact .cons (ih (Nat.succ.inj hlength))
  | rel hab => exact .rel hab

/-- The extensions of walks of one length are in order if the walks are. -/
theorem pairwise_lex_extensions {ws : List (List Address)} {n : Nat}
    (hws : ws.Pairwise (List.Lex (· < ·))) (hlength : ∀ w ∈ ws, w.length = n) :
    (ws.flatMap (g.extensions l)).Pairwise (List.Lex (· < ·)) := by
  rw [List.pairwise_flatMap]
  refine ⟨fun w _ => ?_, ?_⟩
  · -- extensions of one walk differ in their last block
    refine List.Pairwise.filter _ (List.pairwise_map.mpr ?_)
    exact (g.successors_pairwise (lastBlock w)).imp fun h => List.Lex.append_left _ (.rel h) w
  · -- extensions of two walks differ where the walks do
    refine List.Pairwise.imp_of_mem (fun {u v} hu hv h x hx y hy => ?_) hws
    obtain ⟨b, -, rfl, -⟩ := mem_extensions.mp hx
    obtain ⟨c, -, rfl, -⟩ := mem_extensions.mp hy
    exact lex_append_append h ((hlength u hu).trans (hlength v hv).symm) [b] [c]

/-! ### The walker as an engine -/

theorem walker_entry {a : Address} (ha : g.contains a = true) :
    g.walker.entry a = .ok (ofWalk [a]) :=
  if_pos ha

/-- The walker enters nodes only. -/
theorem of_walker_entry {a : Address} {s : WalkState} (h : g.walker.entry a = .ok s) :
    g.contains a = true ∧ s = ofWalk [a] := by
  unfold walker at h
  dsimp only at h
  split at h
  · next ha => exact ⟨ha, (Except.ok.inj h).symm⟩
  · cases h

/-- A step of the walker keeps the history. It stays where it is, or it follows an edge. -/
theorem of_mem_walkStep {s t : WalkState} (ht : t ∈ g.walkStep s) :
    t.history = s.history ++ [s.address] ∧
      (t.address = s.address ∨ g.Edge s.address t.address) := by
  unfold walkStep at ht
  dsimp only at ht
  split at ht
  · obtain rfl := List.mem_singleton.mp ht
    exact ⟨rfl, Or.inl rfl⟩
  · obtain ⟨b, hb, rfl⟩ := List.mem_map.mp ht
    exact ⟨rfl, Or.inr (mem_successors.mp hb)⟩

theorem walker_recordsHistory (g : Graph) : g.walker.RecordsHistory where
  entry_history := by
    intro a s hs
    rw [(of_walker_entry hs).2]
    rfl
  step_history := by
    intro s next hs t ht
    obtain rfl : g.walkStep s = next := Except.ok.inj hs
    exact (of_mem_walkStep ht).1

/-- The walker stays within the graph. -/
theorem address_mem_nodes_of_reachable {s : WalkState} (hs : g.walker.Reachable s) :
    s.address ∈ g.nodes := by
  induction hs with
  | entry h =>
    obtain ⟨ha, rfl⟩ := of_walker_entry h
    exact mem_nodes.mpr ha
  | @step s t next _ h ht ih =>
    obtain rfl : g.walkStep s = next := Except.ok.inj h
    rcases (of_mem_walkStep ht).2 with hstay | hedge
    · exact hstay ▸ ih
    · exact hedge.target_mem

/-- A loop of two blocks with an exit from the second one. -/
def lasso : Graph :=
  ((Graph.empty.addEdge 1 2).addEdge 2 1).addEdge 2 3

end Graph

namespace Stashes

open WalkState SymbolicPaths.Graph

variable {g : Graph} {l : LoopBound} {m : Stashes WalkState} {ws : List (List Address)}

/-- **A round of the walker.** Every walk is replaced by its extensions. -/
theorem active_next_walker (hm : m.active = ws.map ofWalk) (hws : ∀ w ∈ ws, w ≠ []) :
    (m.next g.walker l).active = (ws.flatMap (g.extensions l)).map ofWalk := by
  rw [next, step_value, round_of_ok fun s _ => rfl, hm]
  simp only [active_append, List.nil_append, List.flatMap_map, List.map_flatMap]
  exact List.flatMap_congr fun w hw => active_added_ofWalk (hws w hw)

/-- Walks that cannot go on are set aside. -/
theorem deadended_next_walker (hm : m.active = ws.map ofWalk) (hws : ∀ w ∈ ws, w ≠ []) :
    (m.next g.walker l).deadended = m.deadended ++ (ws.filter g.isComplete).map ended := by
  rw [next, step_value, round_of_ok fun s _ => rfl, hm]
  simp only [deadended_append, List.flatMap_map]
  congr 1
  rw [List.flatMap_congr fun w hw => deadended_added_ofWalk (hws w hw), flatMap_ite,
    List.map_eq_flatMap]

end Stashes

end SymbolicPaths
