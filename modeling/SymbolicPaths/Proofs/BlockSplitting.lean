import Mathlib.Data.List.Infix
import SymbolicPaths.Recovery

/-!
# Cutting instructions into runs

What is known about the runs into which decoded instructions are cut. Put together, they are the
instructions (`flatMap_flows_splitRuns`). A run begins at a leader, and none of its other
instructions is one (`address_mem_of_mem_tail`, `address_notMem_of_mem_rest`), so that the blocks of
a function begin exactly at its leaders (`mem_blockStarts`). An instruction that is not followed by
a leader simply goes on (`transfer_eq_plain`), which is why control leaves a run at its last
instruction only.

That an instruction follows another one is written as `[f, g] <:+: flows`: the two stand side by
side in the list.
-/

namespace SymbolicPaths

/-- The pairs of a list and its tail are the elements that stand side by side. -/
theorem mem_zip_tail_iff {α : Type} {l : List α} {x y : α} :
    (x, y) ∈ l.zip l.tail ↔ [x, y] <:+: l := by
  induction l with
  | nil => simp
  | cons z rest ih =>
    rw [List.infix_cons_iff, ← ih, List.tail_cons]
    cases rest with
    | nil => simp
    | cons w rest =>
      rw [List.zip_cons_cons, List.mem_cons, List.tail_cons, List.cons_prefix_cons,
        List.cons_prefix_cons, Prod.mk.injEq]
      simp

variable {known : AddressSet} {flows : List Flow} {r : Run} {f g : Flow} {a : Address}

/-! ### Leaders -/

theorem mem_instructionSet : a ∈ instructionSet flows ↔ ∃ f ∈ flows, f.address = a := by
  rw [instructionSet, Std.ExtTreeSet.mem_ofList, List.contains_iff_mem, List.mem_map]

/-- A leader is the first instruction, or one that is jumped to, or one that follows an instruction
which does not simply go on. -/
theorem mem_leaders :
    a ∈ leaders flows ↔
      (∃ f ∈ flows.head?, f.address = a) ∨
      (∃ f ∈ flows, f.transfer.target? = some a ∧ ∃ g ∈ flows, g.address = a) ∨
      ∃ f g, [f, g] <:+: flows ∧ f.transfer ≠ .plain ∧ g.address = a := by
  rw [leaders, Std.ExtTreeSet.mem_ofList, List.contains_iff_mem, List.mem_append, List.mem_append,
    or_assoc]
  refine or_congr ?_ (or_congr ?_ ?_)
  · simp
  · rw [List.mem_filter, List.mem_filterMap, ← Std.ExtTreeSet.mem_iff_contains, mem_instructionSet]
    constructor
    · rintro ⟨⟨f, hf, htarget⟩, hknown⟩
      exact ⟨f, hf, htarget, hknown⟩
    · rintro ⟨f, hf, htarget, hknown⟩
      exact ⟨⟨f, hf, htarget⟩, hknown⟩
  · rw [List.mem_filterMap]
    constructor
    · rintro ⟨⟨f, g⟩, hmem, ha⟩
      dsimp only at ha
      split at ha
      · cases ha
      · next hflow => exact ⟨f, g, mem_zip_tail_iff.mp hmem, hflow, Option.some.inj ha⟩
    · rintro ⟨f, g, hadjacent, hflow, rfl⟩
      exact ⟨(f, g), mem_zip_tail_iff.mpr hadjacent, if_neg hflow⟩

/-- Every leader is an instruction. -/
theorem exists_of_mem_leaders (ha : a ∈ leaders flows) : ∃ f ∈ flows, f.address = a := by
  rcases mem_leaders.mp ha with ⟨f, hf, hfa⟩ | ⟨-, -, -, hknown⟩ | ⟨f, g, hadjacent, -, hga⟩
  · exact ⟨f, List.mem_of_head? hf, hfa⟩
  · exact hknown
  · exact ⟨g, hadjacent.subset (by simp), hga⟩

/-- An instruction that does not simply go on is followed by a leader. -/
theorem transfer_eq_plain (hadjacent : [f, g] <:+: flows) (hg : g.address ∉ leaders flows) :
    f.transfer = .plain := by
  by_contra hflow
  exact hg (mem_leaders.mpr (Or.inr (Or.inr ⟨f, g, hadjacent, hflow, rfl⟩)))

/-! ### Runs -/

/-- **Nothing is lost.** The runs, put together, are the instructions. -/
theorem flatMap_flows_splitRuns (known : AddressSet) (flows : List Flow) :
    (splitRuns known flows).flatMap Run.flows = flows := by
  fun_induction splitRuns known flows with
  | case1 => rfl
  | case2 f rest hnone ih =>
    rw [hnone, List.flatMap_nil] at ih
    rw [← ih]
    rfl
  | case3 f rest r runs hrest _ ih =>
    rw [hrest] at ih
    rw [List.flatMap_cons, ih]
    rfl
  | case4 f rest r runs hrest _ ih =>
    -- the instruction joins the run that follows it
    rw [hrest, List.flatMap_cons] at ih
    rw [List.flatMap_cons, ← ih]
    rfl

/-- Within a run there is no leader. -/
theorem address_notMem_of_mem_rest (hr : r ∈ splitRuns known flows) (hf : f ∈ r.rest) :
    f.address ∉ known := by
  fun_induction splitRuns known flows generalizing r with
  | case1 => cases hr
  | case2 =>
    obtain rfl := List.mem_singleton.mp hr
    cases hf
  | case3 first rest s runs hrest _ ih =>
    rw [hrest] at ih
    rcases List.mem_cons.mp hr with rfl | hr
    · cases hf
    · exact ih hr hf
  | case4 first rest s runs hrest hleader ih =>
    rw [hrest] at ih
    rcases List.mem_cons.mp hr with rfl | hr
    · -- what comes second in the run was the first of the run that it has joined
      rcases List.mem_cons.mp hf with rfl | hf
      · exact fun hmem => hleader (Std.ExtTreeSet.mem_iff_contains.mp hmem)
      · exact ih List.mem_cons_self hf
    · exact ih (List.mem_cons_of_mem _ hr) hf

/-- Every run but the first begins at a leader. -/
theorem address_mem_of_mem_tail (hr : r ∈ (splitRuns known flows).tail) : r.address ∈ known := by
  fun_induction splitRuns known flows with
  | case1 => cases hr
  | case2 => cases hr
  | case3 f rest s runs hrest hleader ih =>
    rw [hrest] at ih
    rcases List.mem_cons.mp hr with rfl | hr
    · exact Std.ExtTreeSet.mem_iff_contains.mpr hleader
    · exact ih hr
  | case4 f rest s runs hrest _ ih =>
    rw [hrest] at ih
    exact ih hr

/-- The first instructions of runs that follow each other are those of their instructions. -/
theorem head?_flatMap_flows (rs : List Run) :
    (rs.flatMap Run.flows).head? = rs.head?.map (·.first) := by
  cases rs with
  | nil => rfl
  | cons r rs => rfl

/-- The first block begins with the first instruction. -/
theorem head?_blockStarts (flows : List Flow) :
    (blockStarts flows).head? = flows.head?.map (·.address) := by
  have hfirst := head?_flatMap_flows (runs flows)
  rw [runs, flatMap_flows_splitRuns, ← runs] at hfirst
  rw [blockStarts, List.head?_map, hfirst, Option.map_map]
  rfl

/-- **Blocks begin at the leaders.** -/
theorem mem_blockStarts : a ∈ blockStarts flows ↔ a ∈ leaders flows := by
  rw [blockStarts, List.mem_map]
  constructor
  · rintro ⟨r, hr, rfl⟩
    obtain ⟨s, rest, hruns⟩ := List.exists_cons_of_ne_nil (List.ne_nil_of_mem hr)
    rw [hruns] at hr
    rcases List.mem_cons.mp hr with rfl | hr
    · -- the first run begins with the first instruction
      have hfirst := head?_blockStarts flows
      rw [blockStarts, hruns] at hfirst
      obtain ⟨f, hf, hfr⟩ := Option.map_eq_some_iff.mp hfirst.symm
      exact mem_leaders.mpr (Or.inl ⟨f, hf, hfr⟩)
    · have htail : r ∈ (splitRuns (leaders flows) flows).tail := by
        rw [← runs, hruns]
        exact hr
      exact address_mem_of_mem_tail htail
  · intro ha
    obtain ⟨f, hf, rfl⟩ := exists_of_mem_leaders ha
    rw [← flatMap_flows_splitRuns (leaders flows) flows] at hf
    obtain ⟨r, hr, hf⟩ := List.mem_flatMap.mp hf
    rcases List.mem_cons.mp hf with rfl | hf
    · exact ⟨r, hr, rfl⟩
    · exact absurd ha (address_notMem_of_mem_rest hr hf)

/-- The last instruction of a run. -/
def Run.last (r : Run) : Flow :=
  r.rest.getLastD r.first

theorem Run.dropLast_append_last (r : Run) : r.flows.dropLast ++ [r.last] = r.flows := by
  refine List.dropLast_append_getLast? _ ?_
  rw [flows, last, List.getLast?_cons, List.getLastD_eq_getLast?]
  rfl

/-- A run stands in one piece among the instructions: after it comes the run that follows. -/
theorem flows_eq_of_runs {before after : List Run} (h : runs flows = before ++ r :: after) :
    flows = before.flatMap Run.flows ++ r.flows ++ after.flatMap Run.flows := by
  conv_lhs => rw [← flatMap_flows_splitRuns (leaders flows) flows]
  rw [← runs, h, List.flatMap_append, List.flatMap_cons, List.append_assoc]

end SymbolicPaths
