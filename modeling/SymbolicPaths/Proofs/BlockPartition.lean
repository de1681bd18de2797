import Mathlib.Algebra.Order.Ring.Nat
import Mathlib.Data.List.SplitBy
import SymbolicPaths.Proofs.BlockGraph

/-!
# Blocks are maximal straight-line runs

Cutting a function into blocks is a partition of its instructions into maximal straight-line runs
(`Run.runs_straightCut`). What this means is said by `StraightCut`, without leaders: the runs make
up the instructions in order; an instruction that does not simply go on is the last one of its run;
one that is jumped to is the first one of its run; and two runs stand apart only because control
leaves the first one at its end or a jump enters the second one.

That the runs are such a cutting is read off the leaders (`straightCut_runs`). A leader that is not
the first instruction and follows no instruction but those that simply go on is the target of a
jump; this is where addresses have to be distinct, because leaders are addresses. No other cutting
will do: all of them separate two neighbours exactly where control does not go straight from one to
the other, so that each of them is the list of instructions split by this relation
(`StraightCut.map_flows_eq_splitBy`).
-/

namespace SymbolicPaths

variable {flows : List Flow} {rs : List Run} {r s : Run} {f g : Flow}

/-- A cutting of instructions into maximal straight-line runs. -/
structure StraightCut (flows : List Flow) (rs : List Run) : Prop where
  /-- Put together, the runs are the instructions: none is lost, doubled or moved. -/
  joins : rs.flatMap Run.flows = flows
  /-- An instruction that does not simply go on is the last one of its run. -/
  leaves_last : ∀ r ∈ rs, ∀ before f after, r.flows = before ++ f :: after →
    f.transfer ≠ .plain → after = []
  /-- An instruction that is jumped to is the first one of a run. -/
  enters_first : ∀ j ∈ flows, ∀ f ∈ flows, j.transfer.target? = some f.address →
    ∃ r ∈ rs, r.first = f
  /-- Two runs stand apart because control leaves the first one at its end or a jump enters the
  second one. -/
  apart : ∀ r s, [r, s] <:+: rs →
    r.last.transfer ≠ .plain ∨ ∃ j ∈ flows, j.transfer.target? = some s.address

/-! ### Neighbours -/

theorem Run.flows_ne_nil (r : Run) : r.flows ≠ [] :=
  List.cons_ne_nil r.first r.rest

theorem Run.getLast_flows (r : Run) : r.flows.getLast r.flows_ne_nil = r.last := by
  have hlast : r.flows.getLast? = some r.last := by
    rw [← r.dropLast_append_last, List.getLast?_concat]
  exact Option.some.inj ((List.getLast?_eq_some_getLast r.flows_ne_nil).symm.trans hlast)

/-- Where two runs meet, the last instruction of one is followed by the first instruction of the
other. -/
theorem infix_last_first (h : [r, s] <:+: rs) : [r.last, s.first] <:+: rs.flatMap Run.flows := by
  obtain ⟨before, after, rfl⟩ := h
  refine ⟨before.flatMap Run.flows ++ r.flows.dropLast, s.rest ++ after.flatMap Run.flows, ?_⟩
  have hr : r.flows = r.flows.dropLast ++ [r.last] := r.dropLast_append_last.symm
  have hs : s.flows = s.first :: s.rest := rfl
  rw [List.flatMap_append, List.flatMap_append, List.flatMap_cons, List.flatMap_singleton, hs]
  conv_rhs => rw [hr]
  simp only [List.append_assoc, List.cons_append, List.nil_append]

/-- What comes before an instruction is determined by its address. -/
theorem eq_of_infix_of_address_eq (hdistinct : (flows.map (·.address)).Nodup) {f' g' : Flow}
    (h : [f, g] <:+: flows) (h' : [f', g'] <:+: flows) (haddress : g.address = g'.address) :
    f = f' := by
  obtain ⟨before, after, hsplit⟩ := h
  obtain ⟨before', after', hsplit'⟩ := h'
  have hsplit : flows = (before ++ [f]) ++ g :: after := by simp [← hsplit]
  have hsplit' : flows = (before' ++ [f']) ++ g' :: after' := by simp [← hsplit']
  obtain ⟨rfl, rfl⟩ := eq_of_append_eq hdistinct hsplit hsplit' haddress
  -- the same instruction with the same rest behind it has the same instructions in front of it
  have hfront : before ++ [f] = before' ++ [f'] :=
    List.append_cancel_right (hsplit.symm.trans hsplit')
  exact List.singleton_inj.mp (List.append_inj' hfront rfl).2

/-- What comes after another instruction is not at the address of the first one. -/
theorem address_ne_of_follows (hdistinct : (flows.map (·.address)).Nodup) {first : Flow}
    (hfirst : flows.head? = some first) (h : [f, g] <:+: flows) : first.address ≠ g.address := by
  intro haddress
  obtain ⟨tail, rfl⟩ := List.head?_eq_some_iff.mp hfirst
  obtain ⟨before, after, hsplit⟩ := h
  have hsplit : first :: tail = (before ++ [f]) ++ g :: after := by simp [← hsplit]
  -- the two would have the same rest behind them, but there is something in front of `g` only
  have hrest : tail = after :=
    (eq_of_append_eq hdistinct (List.nil_append _).symm hsplit haddress).2
  have hlength := congrArg List.length hsplit
  rw [hrest, List.length_append, List.length_append, List.length_singleton, List.length_cons,
    List.length_cons] at hlength
  omega

/-- An instruction that follows another one of its run is not the first one. -/
theorem mem_rest_of_flows_eq {before after : List Flow}
    (hsplit : r.flows = before ++ f :: g :: after) : g ∈ r.rest := by
  have htail : r.flows.tail = r.rest := rfl
  rw [← htail, hsplit]
  cases before with
  | nil => simp
  | cons _ before => simp

/-! ### The runs are a straight cut -/

theorem leaves_last_runs (hr : r ∈ runs flows) {before after : List Flow}
    (hsplit : r.flows = before ++ f :: after) (hf : f.transfer ≠ .plain) : after = [] := by
  cases after with
  | nil => rfl
  | cons g after =>
    -- what follows within the run is no leader, so that `f` simply goes on
    have hrest : g ∈ r.rest := mem_rest_of_flows_eq hsplit
    have hadjacent : [f, g] <:+: flows := by
      obtain ⟨front, back, hruns⟩ := List.append_of_mem hr
      rw [flows_eq_of_runs hruns, hsplit]
      exact ⟨front.flatMap Run.flows ++ before, after ++ back.flatMap Run.flows, by simp⟩
    exact absurd (transfer_eq_plain hadjacent (address_notMem_of_mem_rest hr hrest)) hf

theorem enters_first_runs {j : Flow} (hj : j ∈ flows) (hf : f ∈ flows)
    (htarget : j.transfer.target? = some f.address) : ∃ r ∈ runs flows, r.first = f := by
  have hleader : f.address ∈ leaders flows :=
    mem_leaders.mpr (Or.inr (Or.inl ⟨j, hj, htarget, f, hf, rfl⟩))
  have hmem : f ∈ (runs flows).flatMap Run.flows := by
    rwa [runs, flatMap_flows_splitRuns]
  obtain ⟨r, hr, hfr⟩ := List.mem_flatMap.mp hmem
  rcases List.mem_cons.mp hfr with rfl | hrest
  · exact ⟨r, hr, rfl⟩
  · exact absurd hleader (address_notMem_of_mem_rest hr hrest)

theorem apart_runs (hdistinct : (flows.map (·.address)).Nodup) (h : [r, s] <:+: runs flows) :
    r.last.transfer ≠ .plain ∨ ∃ j ∈ flows, j.transfer.target? = some s.address := by
  have hadjacent : [r.last, s.first] <:+: flows := by
    have hmeet := infix_last_first h
    rwa [runs, flatMap_flows_splitRuns] at hmeet
  have hleader : s.address ∈ leaders flows := by
    obtain ⟨before, after, hruns⟩ := h
    have htail : s ∈ (runs flows).tail := by
      rw [← hruns]
      cases before with
      | nil => simp
      | cons _ before => simp
    exact address_mem_of_mem_tail htail
  -- the three ways to become a leader
  rcases mem_leaders.mp hleader with
    ⟨first, hfirst, haddress⟩ | ⟨j, hj, htarget, -⟩ | ⟨f, g, hfollows, hf, hg⟩
  · -- `s` does not begin with the first instruction, for `r` comes before it
    exact absurd haddress (address_ne_of_follows hdistinct hfirst hadjacent)
  · exact Or.inr ⟨j, hj, htarget⟩
  · obtain rfl : r.last = f := eq_of_infix_of_address_eq hdistinct hadjacent hfollows hg.symm
    exact Or.inl hf

theorem straightCut_runs (hdistinct : (flows.map (·.address)).Nodup) :
    StraightCut flows (runs flows) where
  joins := flatMap_flows_splitRuns _ flows
  leaves_last := fun _ hr _ _ _ hsplit hf => leaves_last_runs hr hsplit hf
  enters_first := fun _ hj _ hf htarget => enters_first_runs hj hf htarget
  apart := fun _ _ h => apart_runs hdistinct h

/-! ### There is no other straight cut -/

/-- Whether control goes straight from `f` to `g`, which follows it: `f` simply goes on, and no jump
leads to `g`. -/
def goesStraight (flows : List Flow) (f g : Flow) : Bool :=
  f.transfer = .plain && flows.all fun j => j.transfer.target? ≠ some g.address

theorem goesStraight_iff :
    goesStraight flows f g = true ↔
      f.transfer = .plain ∧ ∀ j ∈ flows, j.transfer.target? ≠ some g.address := by
  simp [goesStraight]

namespace StraightCut

variable (h : StraightCut flows rs) (hdistinct : (flows.map (·.address)).Nodup)

include h hdistinct

/-- No instruction is the first one of a run and comes later in one. -/
theorem first_notMem_rest (hr : r ∈ rs) (hs : s ∈ rs) : s.first ∉ r.rest := by
  intro hmem
  have hnodup : (rs.flatMap Run.flows).Nodup := by
    rw [h.joins]
    exact hdistinct.of_map
  obtain ⟨hwithin, hbetween⟩ := List.nodup_flatMap.mp hnodup
  by_cases heq : s = r
  · -- within one run nothing comes twice
    subst heq
    exact (List.nodup_cons.mp (hwithin s hs)).1 hmem
  · have : Std.Symm (Function.onFun List.Disjoint Run.flows) :=
      ⟨fun _ _ hd => List.disjoint_symm hd⟩
    have hdisjoint : s.flows.Disjoint r.flows := hbetween.forall hs hr heq
    exact hdisjoint List.mem_cons_self (List.mem_cons_of_mem _ hmem)

/-- Within a run, control goes straight from each instruction to the next. -/
theorem isChain_flows (hr : r ∈ rs) : r.flows.IsChain fun f g => goesStraight flows f g = true := by
  rw [List.isChain_iff_forall_rel_of_append_cons_cons]
  intro f g before after hsplit
  rw [goesStraight_iff]
  constructor
  · by_contra hf
    have hnothing := h.leaves_last r hr before f (g :: after) hsplit hf
    cases hnothing
  · intro j hj htarget
    have hg : g ∈ r.flows := by
      rw [hsplit]
      simp
    have hrest : g ∈ r.rest := mem_rest_of_flows_eq hsplit
    have hflows : g ∈ flows := by
      rw [← h.joins]
      exact List.mem_flatMap.mpr ⟨r, hr, hg⟩
    obtain ⟨s, hs, hfirst⟩ := h.enters_first j hj g hflows htarget
    exact h.first_notMem_rest hdistinct hr hs (hfirst ▸ hrest)

/-- **A straight cut separates neighbours exactly where control does not go straight on.** -/
theorem map_flows_eq_splitBy : rs.map Run.flows = flows.splitBy (goesStraight flows) := by
  symm
  rw [List.splitBy_eq_iff]
  refine ⟨?_, ?_, ?_, ?_⟩
  · rw [← List.flatMap_def, h.joins]
  · intro hnil
    obtain ⟨r, -, hr⟩ := List.mem_map.mp hnil
    cases hr
  · intro fs hfs
    obtain ⟨r, hr, rfl⟩ := List.mem_map.mp hfs
    exact h.isChain_flows hdistinct hr
  · rw [List.isChain_map, List.isChain_iff_forall_rel_of_append_cons_cons]
    intro r s before after hsplit
    have hreason := h.apart r s ⟨before, after, by simp [hsplit]⟩
    refine ⟨r.flows_ne_nil, s.flows_ne_nil, ?_⟩
    change goesStraight flows (r.flows.getLast r.flows_ne_nil) s.first = false
    rw [r.getLast_flows, ← Bool.not_eq_true, goesStraight_iff]
    rintro ⟨hplain, hnone⟩
    rcases hreason with hleaves | ⟨j, hj, htarget⟩
    · exact hleaves hplain
    · exact hnone j hj htarget

end StraightCut

/-! ### Blocks -/

theorem Run.flows_injective : Function.Injective Run.flows := by
  rintro ⟨first, rest⟩ ⟨first', rest'⟩ heq
  obtain ⟨rfl, rfl⟩ := List.cons.inj heq
  rfl

/-- Adding up sizes one after the other gives their sum. -/
theorem foldl_size (fs : List Flow) (n : UInt64) :
    fs.foldl (· + ·.size) n = n + .ofNat (fs.map (·.size.toNat)).sum := by
  induction fs generalizing n with
  | nil => simp
  | cons f fs ih =>
    rw [List.foldl_cons, ih, List.map_cons, List.sum_cons, UInt64.ofNat_add, UInt64.ofNat_toNat,
      UInt64.add_assoc]

/-- **Cutting into blocks is a partition into maximal straight-line runs.** If no two instructions
have the same address, then the runs of a function are a straight cut of its instructions, and the
only one. The blocks that are made of them are not empty, their instructions put together are those
of the function, each block is kept under the address of its first instruction, and its size is the
sum of the sizes of its instructions. -/
theorem Run.runs_straightCut (flows : List Flow) (hdistinct : (flows.map (·.address)).Nodup) :
    StraightCut flows (runs flows) ∧ (∀ rs, StraightCut flows rs → rs = runs flows) ∧
    (runs flows).flatMap (·.block.instructions) = flows.map (·.instruction) ∧
    ∀ r ∈ runs flows,
      r.block.instructions = r.flows.map (·.instruction) ∧ r.block.instructions ≠ [] ∧
      r.block.instructions.head?.map (·.address) = some r.address ∧
      r.block.size = .ofNat (r.flows.map (·.size.toNat)).sum := by
  have hcut := straightCut_runs hdistinct
  refine ⟨hcut, fun rs h => ?_, ?_, fun r _ => ⟨rfl, List.cons_ne_nil _ _, rfl, ?_⟩⟩
  · refine Run.flows_injective.list_map ?_
    rw [h.map_flows_eq_splitBy hdistinct, hcut.map_flows_eq_splitBy hdistinct]
  · conv_rhs => rw [← hcut.joins]
    rw [List.map_flatMap]
    rfl
  · have hsize : r.block.size = r.flows.foldl (· + ·.size) 0 := rfl
    rw [hsize, foldl_size, UInt64.zero_add]

/-- The loop of the countdown is a block of two instructions, and the jump that closes it is what
separates it from the block before. Left in one piece, the instructions are no straight cut. -/
theorem Run.runs_straightCut_countdown :
    (countdown.map (·.address)).Nodup ∧ StraightCut countdown (runs countdown) ∧
    ((runs countdown).map fun r => (r.address, r.block.size)) = [(1, 1), (2, 2), (4, 1)] ∧
    ¬ StraightCut countdown (splitRuns ∅ countdown) := by
  have hdistinct : (countdown.map (·.address)).Nodup := by decide
  obtain ⟨hcut, hunique, -, -⟩ := Run.runs_straightCut countdown hdistinct
  refine ⟨hdistinct, hcut, by decide, fun hwhole => ?_⟩
  have hsame : splitRuns ∅ countdown = runs countdown := hunique _ hwhole
  revert hsame
  decide

end SymbolicPaths
