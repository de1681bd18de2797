import Mathlib.Data.List.Perm.Basic
import Mathlib.Data.Multiset.AddSub
import Mathlib.Logic.Function.Iterate
import SymbolicPaths.Proofs.Rounds
import SymbolicPaths.Proofs.Termination

/-!
# The discipline of the stashes

A simulation can be stepped, run to its end and told to stop some of its states, in any order, and
it can be used on after the engine has failed. Whatever is done with it, the stashes hold what they
are for (`Stashes.Disciplined`), and nothing is ever taken out of a stash other than the active one
(`Stashes.Extends`). `Stashes.stash_discipline` says so for all sequences of operations, together
with two laws of single steps.

* A step that succeeds puts the offspring of the active states, that is their successors and those
  states that have none, into the active, dead-ended and spinning stashes, each of them into one
  (`perm_of_step`).
* A step that fails at some state leaves what a step over the states before it leaves
  (`step_of_step_error`).

A round is a recursion over the active states, and both laws go along with it: a state contributes
its offspring (`distributed_added`), and the round ends at the first state where the engine fails.
Runs are repeated steps, so that whatever a step keeps is kept by a run (`StopsWithin.run_of_next`).
-/

namespace SymbolicPaths

open SymbolicState

variable {σ : Type}

/-- What a state turns into when its block is executed: its successors, or the state itself if it
has none. -/
def Engine.offspring (e : Engine σ) (s : σ) : List σ :=
  match e.step s with
  | .ok [] => [s]
  | .ok next => next
  | .error _ => []

namespace Stashes

variable {e : Engine σ} {l : LoopBound} {m m' : Stashes σ}

/-! ### Going on -/

/-- The second stashes go on where the first ones end, the active states apart. -/
structure Extends (m m' : Stashes σ) : Prop where
  deadended : m.deadended <+: m'.deadended
  spinning : m.spinning <+: m'.spinning
  stopped : m.stopped <+: m'.stopped

theorem Extends.refl (m : Stashes σ) : m.Extends m where
  deadended := List.prefix_rfl
  spinning := List.prefix_rfl
  stopped := List.prefix_rfl

theorem Extends.trans {m'' : Stashes σ} (h : m.Extends m') (h' : m'.Extends m'') :
    m.Extends m'' where
  deadended := h.deadended.trans h'.deadended
  spinning := h.spinning.trans h'.spinning
  stopped := h.stopped.trans h'.stopped

theorem extends_stopActive (p : σ → Bool) (m : Stashes σ) : m.Extends (m.stopActive p) where
  deadended := List.prefix_rfl
  spinning := List.prefix_rfl
  stopped := List.prefix_append _ _

/-- The states of the stashes into which a round distributes. -/
def distributed (m : Stashes σ) : List σ :=
  m.active ++ m.deadended ++ m.spinning

theorem perm_distributed_append (m m' : Stashes σ) :
    (m ++ m').distributed.Perm (m.distributed ++ m'.distributed) := by
  unfold distributed
  rw [← Multiset.coe_eq_coe]
  simp only [active_append, deadended_append, spinning_append, ← Multiset.coe_add]
  rw [add_add_add_comm (m.active : Multiset σ), add_add_add_comm]

/-- What can be done with a simulation. -/
inductive Operation (σ : Type) where
  /-- Execute one block of every active state. -/
  | step
  /-- Step until no state is active or the engine fails. -/
  | run
  /-- Stop the active states that `p` picks. -/
  | stop (p : σ → Bool)

variable [SymbolicState σ]

theorem extends_next (e : Engine σ) (l : LoopBound) (m : Stashes σ) : m.Extends (m.next e l) where
  deadended := List.prefix_append _ _
  spinning := List.prefix_append _ _
  stopped := List.prefix_append _ _

/-- **Runs are repeated steps.** What a step keeps is kept by a run that stops. -/
theorem StopsWithin.run_of_next {P : Stashes σ → Prop} {n : Nat} (h : StopsWithin e l n m)
    (hstep : ∀ m, P m → P (m.next e l)) (hm : P m) : P (m.run e l).value.1 := by
  obtain ⟨⟨k, -, hrun⟩, -⟩ := h.run_ends
  rw [hrun]
  exact Function.Iterate.rec P hm hstep k

/-! ### What the stashes hold -/

/-- The stashes hold what they are for. -/
structure Disciplined (e : Engine σ) (l : LoopBound) (m : Stashes σ) : Prop where
  active : ∀ s ∈ m.active, halted s = false ∧ l.isSpinning (walk s) = false
  spinning : ∀ s ∈ m.spinning, l.isSpinning (walk s) = true ∧ halted s = false
  deadended : ∀ s ∈ m.deadended, halted s = true ∨ e.step s = .ok []

/-- A state that has been nowhere does not spin. -/
theorem Disciplined.start {s : σ} (hhalted : halted s = false) (hhistory : history s = []) :
    Disciplined e l (.start s) where
  active := by
    intro t ht
    obtain rfl := List.mem_singleton.mp ht
    refine ⟨hhalted, ?_⟩
    rw [walk, hhistory]
    rfl
  spinning := fun t ht => absurd ht List.not_mem_nil
  deadended := fun t ht => absurd ht List.not_mem_nil

theorem mem_spinning_added {s t : σ} {next : List σ} (ht : t ∈ (added l s next).spinning) :
    l.isSpinning (walk t) = true ∧ halted t = false := by
  unfold added at ht
  split at ht
  · exact absurd ht List.not_mem_nil
  · have hsorted := (List.mem_filter.mp ht).2
    rw [Bool.and_eq_true, Bool.not_eq_true'] at hsorted
    exact hsorted.symm

theorem mem_spinning_step {t : σ} (ht : t ∈ (m.next e l).spinning) :
    t ∈ m.spinning ∨ l.isSpinning (walk t) = true ∧ halted t = false := by
  rw [next, step_value, spinning_append, List.mem_append] at ht
  refine ht.imp_right fun ht => ?_
  obtain ⟨s, -, next, -, ht⟩ := exists_added_of_mem_round rfl (fun _ _ => rfl) ht
  exact mem_spinning_added ht

/-- **One step keeps the discipline**, whether the engine fails in it or not. -/
theorem Disciplined.next (h : m.Disciplined e l) : (m.next e l).Disciplined e l where
  active := by
    intro t ht
    obtain ⟨s, -, next, -, -, hgoes⟩ := mem_active_step ht
    rw [goesOn, Bool.and_eq_true, Bool.not_eq_true', Bool.not_eq_true'] at hgoes
    exact hgoes
  spinning := fun t ht => (mem_spinning_step ht).elim (h.spinning t) id
  deadended := by
    intro t ht
    rcases mem_deadended_step ht with ht | ⟨s, -, next, hnext, ⟨rfl, rfl⟩ | ⟨-, hhalted⟩⟩
    · exact h.deadended t ht
    · exact Or.inr hnext
    · exact Or.inl hhalted

theorem Disciplined.stopActive (h : m.Disciplined e l) (p : σ → Bool) :
    (m.stopActive p).Disciplined e l where
  active := fun t ht => h.active t (List.mem_of_mem_filter ht)
  spinning := h.spinning
  deadended := h.deadended

/-! ### What becomes of the active states -/

/-- Every successor goes into one of three stashes. -/
theorem distributed_sorted (l : LoopBound) (next : List σ) :
    (sorted l next).distributed.Perm next := by
  -- the dead ends and the spinning states are those that do not go on
  have hhalted : (next.filter fun s => !goesOn l s).filter (fun s => halted s) =
      next.filter fun s => halted s := by
    rw [List.filter_filter]
    refine List.filter_congr fun s _ => ?_
    cases h : halted s <;> simp [goesOn, h]
  have hspinning : (next.filter fun s => !goesOn l s).filter (fun s => !halted s) =
      next.filter fun s => !halted s && l.isSpinning (walk s) := by
    rw [List.filter_filter]
    refine List.filter_congr fun s _ => ?_
    cases h : halted s <;> simp [goesOn, h]
  have hothers := List.filter_append_perm (fun s => halted s) (next.filter fun s => !goesOn l s)
  rw [hhalted, hspinning] at hothers
  have hassoc : (sorted l next).distributed = next.filter (goesOn l) ++
      ((next.filter fun s => halted s) ++
        next.filter fun s => !halted s && l.isSpinning (walk s)) :=
    List.append_assoc _ _ _
  rw [hassoc]
  exact (hothers.append_left _).trans (List.filter_append_perm (goesOn l) next)

/-- **One state.** It contributes its offspring. -/
theorem distributed_added {s : σ} {next : List σ} (h : e.step s = .ok next) :
    (added l s next).distributed.Perm (e.offspring s) := by
  unfold added Engine.offspring
  rw [h]
  cases next with
  | nil => exact List.Perm.refl _
  | cons t rest => exact distributed_sorted l (t :: rest)

/-- **One round.** Unless the engine fails, it distributes the offspring of all its states. -/
theorem distributed_round {ss : List σ} (h : (round e l ss).value.2 = none) :
    (round e l ss).value.1.distributed.Perm (ss.flatMap e.offspring) ∧
      ∀ s ∈ ss, ∃ next, e.step s = .ok next := by
  induction ss with
  | nil => exact ⟨List.Perm.refl _, fun s hs => absurd hs List.not_mem_nil⟩
  | cons s rest ih =>
    cases hs : e.step s with
    | error err =>
      rw [round_cons_error hs] at h
      cases h
    | ok next =>
      rw [round_cons_ok hs] at h ⊢
      obtain ⟨hperm, hok⟩ := ih h
      refine ⟨(perm_distributed_append _ _).trans ?_, List.forall_mem_cons.mpr ⟨⟨next, hs⟩, hok⟩⟩
      rw [List.flatMap_cons]
      exact (distributed_added hs).append hperm

/-- A round fails at the first state where the engine does, and adds what the states before it
add. -/
theorem round_of_round_error {ss : List σ} {err : EngineError}
    (h : (round e l ss).value.2 = some err) :
    ∃ before s after, ss = before ++ s :: after ∧ e.step s = .error err ∧
      (round e l before).value = ((round e l ss).value.1, none) := by
  induction ss with
  | nil => cases h
  | cons s rest ih =>
    cases hs : e.step s with
    | error err' =>
      rw [round_cons_error hs] at h ⊢
      obtain rfl := Option.some.inj h
      exact ⟨[], s, rest, rfl, hs, rfl⟩
    | ok next =>
      rw [round_cons_ok hs] at h ⊢
      obtain ⟨before, t, after, rfl, ht, hbefore⟩ := ih h
      refine ⟨s :: before, t, after, rfl, ht, ?_⟩
      rw [round_cons_ok hs, hbefore]

/-- **A successful step.** The offspring of the active states is what is active now, and what the
dead ends and the spinning states have gained. -/
theorem perm_of_step (h : (m.step e l).value.2 = none) :
    (∀ s ∈ m.active, ∃ next, e.step s = .ok next) ∧
    ∃ dead spin, (m.next e l).deadended = m.deadended ++ dead ∧
      (m.next e l).spinning = m.spinning ++ spin ∧ (m.next e l).stopped = m.stopped ∧
      ((m.next e l).active ++ dead ++ spin).Perm (m.active.flatMap e.offspring) := by
  rw [step_value] at h
  obtain ⟨hperm, hok⟩ := distributed_round h
  exact ⟨hok, _, _, rfl, rfl, stopped_step, hperm⟩

/-- **A failed step.** It leaves what a step over the states before the failing one leaves. -/
theorem step_of_step_error {err : EngineError} (h : (m.step e l).value.2 = some err) :
    ∃ before s after, m.active = before ++ s :: after ∧ e.step s = .error err ∧
      ({ m with active := before }.step e l).value = (m.next e l, none) := by
  rw [step_value] at h
  obtain ⟨before, s, after, hactive, hs, hbefore⟩ := round_of_round_error h
  refine ⟨before, s, after, hactive, hs, ?_⟩
  rw [step_value, next, step_value]
  dsimp only
  rw [hbefore]

/-! ### Sequences of operations -/

/-- An operation that comes to an end leaves these stashes, whether or not the engine has failed in
it. Only a run may have no end. -/
inductive Operation.Leaves (e : Engine σ) (l : LoopBound) (m : Stashes σ) :
    Operation σ → Stashes σ → Prop
  | step : Leaves e l m .step (m.step e l).value.1
  | run {n : Nat} : StopsWithin e l n m → Leaves e l m .run (m.run e l).value.1
  | stop (p : σ → Bool) : Leaves e l m (.stop p) (m.stopActive p)

/-- The stashes after several operations, one after another. -/
inductive Performed (e : Engine σ) (l : LoopBound) (m₀ : Stashes σ) :
    List (Operation σ) → Stashes σ → Prop
  | nothing : Performed e l m₀ [] m₀
  | more {ops : List (Operation σ)} {op : Operation σ} {m m' : Stashes σ} :
    Performed e l m₀ ops m → op.Leaves e l m m' → Performed e l m₀ (ops ++ [op]) m'

/-- **One operation** keeps the discipline, and takes nothing out of a stash. -/
theorem Operation.Leaves.disciplined {op : Operation σ} (hop : op.Leaves e l m m')
    (h : m.Disciplined e l) : m'.Disciplined e l ∧ m.Extends m' := by
  cases hop with
  | step => exact ⟨h.next, extends_next e l m⟩
  | run hstops =>
    refine hstops.run_of_next (P := fun m' => m'.Disciplined e l ∧ m.Extends m') ?_ ⟨h, .refl m⟩
    exact fun m' hm' => ⟨hm'.1.next, hm'.2.trans (extends_next e l m')⟩
  | stop p => exact ⟨h.stopActive p, extends_stopActive p m⟩

/-- **All operations** keep it. -/
theorem Performed.disciplined {m₀ : Stashes σ} {ops : List (Operation σ)}
    (hm : Performed e l m₀ ops m) (h : m₀.Disciplined e l) : m.Disciplined e l := by
  induction hm with
  | nothing => exact h
  | more _ hop ih => exact (hop.disciplined ih).1

/-- **The discipline of the stashes.** Let entry states not be halted and have been nowhere, and let
any operations have been performed on a simulation that was started at an entry state. Then no
active state is halted or spins, the spinning states spin and are not halted, and the dead ends are
halted or have no successor; and this is still so after one more operation, by which the dead ends,
the spinning and the stopped states can only have gained states at their ends. If a step succeeds,
then the engine has succeeded at every active state, and the states that are active now and those
that the dead ends and the spinning states have gained are the offspring of the active states, each
counted as often as it occurs. If a step fails, then at some active state, and what it leaves is
what a successful step over the active states before it leaves. -/
theorem stash_discipline (e : Engine σ) (l : LoopBound)
    (hentry : ∀ a s, e.entry a = .ok s → halted s = false ∧ history s = []) (a : Address) (s : σ)
    (hs : e.entry a = .ok s) (ops : List (Operation σ)) (m : Stashes σ)
    (hm : Performed e l (.start s) ops m) :
    m.Disciplined e l ∧
    (∀ op m', Operation.Leaves e l m op m' → m'.Disciplined e l ∧ m.Extends m') ∧
    ((m.step e l).value.2 = none →
      (∀ t ∈ m.active, ∃ next, e.step t = .ok next) ∧
      ∃ dead spin, (m.next e l).deadended = m.deadended ++ dead ∧
        (m.next e l).spinning = m.spinning ++ spin ∧ (m.next e l).stopped = m.stopped ∧
        ((m.next e l).active ++ dead ++ spin).Perm (m.active.flatMap e.offspring)) ∧
    ∀ err, (m.step e l).value.2 = some err →
      ∃ before t after, m.active = before ++ t :: after ∧ e.step t = .error err ∧
        ({ m with active := before }.step e l).value = (m.next e l, none) := by
  obtain ⟨hhalted, hhistory⟩ := hentry a s hs
  have hdisciplined : m.Disciplined e l := hm.disciplined (.start hhalted hhistory)
  refine ⟨hdisciplined, fun op m' hop => hop.disciplined hdisciplined, perm_of_step,
    fun err herr => ?_⟩
  exact step_of_step_error herr

end Stashes

/-- An engine that stays at block 1, goes on to block 2 and leaves through block 3. Block 2 cannot
be executed. -/
def Engine.brittle : Engine WalkState where
  entry a := .ok ⟨a, [], false⟩
  step s :=
    let history := s.history ++ [s.address]
    if s.address = 2 then .error (.step 2 "unmapped")
    else .ok [⟨1, history, false⟩, ⟨2, history, false⟩, ⟨3, history, true⟩]

/-- The first step succeeds. The second one gets as far as block 2, where the engine fails, and
leaves what the state at block 1 has turned into, which has stayed there too often. -/
theorem Stashes.stash_discipline_brittle :
    let l := LoopBound.ofGraph Graph.empty [] 1
    let m : Stashes WalkState :=
      { active := [⟨1, [1], false⟩, ⟨2, [1], false⟩], deadended := [⟨3, [1], true⟩] }
    let m' : Stashes WalkState := {
      active := [⟨2, [1, 1], false⟩]
      deadended := [⟨3, [1], true⟩, ⟨3, [1, 1], true⟩]
      spinning := [⟨1, [1, 1], false⟩] }
    (∀ a s, Engine.brittle.entry a = .ok s → halted s = false ∧ history s = []) ∧
    Performed Engine.brittle l (.start ⟨1, [], false⟩) [.step] m ∧
    Operation.Leaves Engine.brittle l m .run m' ∧
    m'.Disciplined Engine.brittle l ∧ m.Extends m' ∧
    ∃ before t after, m.active = before ++ t :: after ∧
      Engine.brittle.step t = .error (.step 2 "unmapped") ∧
      ({ m with active := before }.step Engine.brittle l).value = (m', none) := by
  intro l m m'
  have hentry : ∀ a s, Engine.brittle.entry a = .ok s → halted s = false ∧ history s = [] := by
    intro a s hs
    obtain rfl := Except.ok.inj hs
    exact ⟨rfl, rfl⟩
  have hm : Performed Engine.brittle l (.start ⟨1, [], false⟩) [.step] m := .more .nothing .step
  have hfails : (m.step Engine.brittle l).value.2 = some (.step 2 "unmapped") := by decide
  have hrun : Operation.Leaves Engine.brittle l m .run m' := by
    have hleaves := Operation.Leaves.run (StopsWithin.fails (n := 0) hfails)
    rw [run_of_error hfails] at hleaves
    exact hleaves
  obtain ⟨-, hop, -, herr⟩ := stash_discipline Engine.brittle l hentry 1 _ rfl _ m hm
  obtain ⟨hdisciplined, hextends⟩ := hop _ _ hrun
  exact ⟨hentry, hm, hrun, hdisciplined, hextends, herr _ hfails⟩

end SymbolicPaths
