import Mathlib.Logic.Function.Iterate
import SymbolicPaths.Proofs.Rounds
import SymbolicPaths.Proofs.Spinning

/-!
# The loop bound guarantees termination

Whatever an engine does, a run under a loop bound ends as long as the engine keeps histories and its
states have finitely many addresses (`Stashes.active_length_le_and_run_ends`). The engine need not
follow the graph from which the bound was made.

Active states do not spin (`Reached.not_isSpinning`), so that their walks are short by
`LoopBound.length_le_of_not_isSpinning`. Every round makes the walks of the active states longer by
one address, and therefore no state can be active after as many rounds as such a walk has addresses.
-/

namespace SymbolicPaths

open SymbolicState

variable {σ : Type} [SymbolicState σ] {e : Engine σ} {l : LoopBound} {A : Finset Address}

/-- The walk of a state stays where the states of the engine are. -/
theorem Engine.RecordsHistory.mem_of_mem_walk (he : e.RecordsHistory)
    (hA : ∀ s, e.Reachable s → address s ∈ A) {s : σ} (hs : e.Reachable s) :
    ∀ a ∈ walk s, a ∈ A := by
  induction hs with
  | entry h =>
    intro a ha
    rw [he.walk_entry h, List.mem_singleton] at ha
    exact ha ▸ hA _ (.entry h)
  | step h hnext ht ih =>
    intro a ha
    rw [he.walk_step hnext ht, List.mem_append, List.mem_singleton] at ha
    rcases ha with ha | rfl
    · exact ih a ha
    · exact hA _ (.step h hnext ht)

namespace Stashes

variable {m : Stashes σ}

/-- No active state is beyond the loop bound. -/
theorem Reached.not_isSpinning (he : e.RecordsHistory) (hm : Reached e l m) :
    ∀ s ∈ m.active, l.isSpinning (walk s) = false := by
  intro s hs
  rcases (hm.active s hs).2 with ⟨a, ha⟩ | hgoes
  · rw [he.walk_entry ha]
    rfl
  · simp only [goesOn, Bool.and_eq_true, Bool.not_eq_true'] at hgoes
    exact hgoes.2

theorem Reached.length_walk_le (he : e.RecordsHistory) (hA : ∀ s, e.Reachable s → address s ∈ A)
    {g : Graph} {roots : List Address} {bound : UInt32}
    (hm : Reached e (.ofGraph g roots bound) m) :
    ∀ s ∈ m.active, (walk s).length ≤ (bound.toNat * A.card ^ 2 + A.card) * A.card := by
  intro s hs
  exact LoopBound.length_le_of_not_isSpinning g roots bound
    (he.mem_of_mem_walk hA (hm.active s hs).1) (hm.not_isSpinning he s hs)

/-- **Rounds run out.** If the walks of active states are never longer than `longest`, then a run
that has come within `k` rounds of it stops within `k` rounds. -/
theorem stopsWithin_of_length_le (he : e.RecordsHistory) {longest : Nat}
    (hshort : ∀ m, Reached e l m → ∀ s ∈ m.active, (walk s).length ≤ longest) :
    ∀ (k : Nat) (m : Stashes σ), Reached e l m →
      (∀ s ∈ m.active, longest < (walk s).length + k) → StopsWithin e l k m := by
  intro k
  induction k with
  | zero =>
    intro m hm hlong
    refine .idle (List.eq_nil_iff_forall_not_mem.mpr fun s hs => ?_)
    have := hshort m hm s hs
    have := hlong s hs
    omega
  | succ k ih =>
    intro m hm hlong
    by_cases hnone : m.active = []
    · exact .idle hnone
    · cases herr : (m.step e l).value.2 with
      | some err => exact .fails herr
      | none =>
        refine .round hnone herr (ih (m.next e l) hm.step fun t ht => ?_)
        -- every walk has become longer by one address
        obtain ⟨s, hs, next, hnext, ht, -⟩ := mem_active_step ht
        have := hlong s hs
        rw [he.walk_step hnext ht, List.length_append, List.length_singleton]
        omega

/-- A run from an entry state stops within as many rounds as a walk can have addresses. -/
theorem stopsWithin_start (he : e.RecordsHistory) (hA : ∀ s, e.Reachable s → address s ∈ A)
    (g : Graph) (roots : List Address) (bound : UInt32) {a : Address} {s : σ}
    (hs : e.entry a = .ok s) :
    StopsWithin e (.ofGraph g roots bound) ((bound.toNat * A.card ^ 2 + A.card) * A.card)
      (start s) := by
  refine stopsWithin_of_length_le he (fun m hm => hm.length_walk_le he hA) _ _ (.start hs) ?_
  intro t ht
  obtain rfl : t = s := List.mem_singleton.mp ht
  rw [he.walk_entry hs, List.length_singleton]
  omega

/-- **How a run ends.** A run that stops is so many rounds, after which no state is active or the
engine has failed at some state. -/
theorem StopsWithin.run_ends {n : Nat} (h : StopsWithin e l n m) :
    (∃ k ≤ n, (m.run e l).value.1 = (next e l)^[k] m) ∧
    ((m.run e l).value.2 = none ∧ (m.run e l).value.1.active = [] ∨
      ∃ err s, (m.run e l).value.2 = some err ∧ e.step s = .error err) := by
  induction h with
  | idle hnone =>
    rw [run_of_active_eq_nil hnone]
    exact ⟨⟨0, Nat.zero_le _, rfl⟩, Or.inl ⟨rfl, hnone⟩⟩
  | fails herr =>
    rw [run_of_error herr]
    obtain ⟨s, -, hs⟩ := exists_error_of_round herr
    exact ⟨⟨1, Nat.le_add_left _ _, rfl⟩, Or.inr ⟨_, s, herr, hs⟩⟩
  | round hactive hok hstops ih =>
    rw [run_of_step hactive hok hstops]
    obtain ⟨⟨k, hk, hrounds⟩, hend⟩ := ih
    exact ⟨⟨k + 1, Nat.succ_le_succ hk, hrounds⟩, hend⟩

/-- **The loop bound alone guarantees termination.** Let the engine keep histories, and let the
addresses of its states be in the finite set `A`. Then no round, in whatever run, leaves an active
state whose walk has more than `(bound * |A| ^ 2 + |A|) * |A|` addresses. A run from an entry state
stops within as many rounds, and either no state is active then or the engine has failed. -/
theorem active_length_le_and_run_ends (he : e.RecordsHistory)
    (hA : ∀ s, e.Reachable s → address s ∈ A) (g : Graph) (roots : List Address) (bound : UInt32) :
    (∀ m, Reached e (.ofGraph g roots bound) m →
      ∀ s ∈ (m.step e (.ofGraph g roots bound)).value.1.active,
        (history s ++ [address s]).length ≤ (bound.toNat * A.card ^ 2 + A.card) * A.card) ∧
    (∀ a s, e.entry a = .ok s →
      StopsWithin e (.ofGraph g roots bound) ((bound.toNat * A.card ^ 2 + A.card) * A.card)
        (start s) ∧
      let r := (start s).run e (.ofGraph g roots bound)
      r.value.2 = none ∧ r.value.1.active = [] ∨
        ∃ err t, r.value.2 = some err ∧ e.step t = .error err) := by
  refine ⟨fun m hm => hm.step.length_walk_le he hA, fun a s hs => ?_⟩
  have hstops := stopsWithin_start he hA g roots bound hs
  exact ⟨hstops, hstops.run_ends.2⟩

end Stashes

/-- An engine that goes back and forth between two addresses for ever. -/
def Engine.pendulum : Engine WalkState where
  entry _ := .ok ⟨1, [], false⟩
  step s := .ok [⟨3 - s.address, s.history ++ [s.address], false⟩]

theorem Engine.pendulum_recordsHistory : Engine.pendulum.RecordsHistory where
  entry_history := by
    intro a s hs
    obtain rfl := Except.ok.inj hs
    rfl
  step_history := by
    intro s next hs t ht
    obtain rfl := Except.ok.inj hs
    obtain rfl := List.mem_singleton.mp ht
    rfl

theorem Engine.pendulum_reachable {s : WalkState} (hs : Engine.pendulum.Reachable s) :
    address s ∈ ({1, 2} : Finset Address) := by
  induction hs with
  | entry h =>
    obtain rfl := Except.ok.inj h
    decide
  | @step s t next _ h ht ih =>
    obtain rfl := Except.ok.inj h
    obtain rfl := List.mem_singleton.mp ht
    rcases Finset.mem_insert.mp ih with h | h
    · change 3 - s.address ∈ _
      rw [show s.address = 1 from h]
      decide
    · change 3 - s.address ∈ _
      rw [show s.address = 2 from Finset.mem_singleton.mp h]
      decide

/-- The graph knows one of the two transitions of the pendulum. The run stops all the same. -/
theorem Stashes.pendulum_run_ends :
    Engine.pendulum.RecordsHistory ∧
    (∀ s, Engine.pendulum.Reachable s → address s ∈ ({1, 2} : Finset Address)) ∧
    StopsWithin Engine.pendulum (.ofGraph (Graph.empty.addEdge 1 2) [1] 1) 12
      (start ⟨1, [], false⟩) := by
  refine ⟨Engine.pendulum_recordsHistory, fun _ => Engine.pendulum_reachable, ?_⟩
  exact ((active_length_le_and_run_ends Engine.pendulum_recordsHistory
    (fun _ => Engine.pendulum_reachable) (Graph.empty.addEdge 1 2) [1] 1).2 1 _ rfl).1

end SymbolicPaths
