import SymbolicPaths.Proofs.DumpLaws
import SymbolicPaths.Proofs.FullExploration

/-!
# Lenient dumps isolate failures

Unless the user asks for more than verbosity 1, an exploration that fails costs the paths of its
function and nothing else (`Project.dump_lenient`). A lenient dump can fail only because of the
binary: its engine cannot be had, or one of the blocks that its functions list is not there. The
first such block, function by function and block by block, is the one that is reported
(`Project.FirstMissing`).

A lenient explorer always gives paths, so that the records of a function can be had exactly if its
blocks can (`exists_dumpFunction_lenient_iff`), and whatever goes wrong with a function goes wrong
with a block (`of_dumpFunction_error`).
-/

namespace SymbolicPaths

variable {σ : Type}

/-- The first block of the functions that is not there, in the order of the functions and of their
blocks, is missing for this reason. -/
def Project.FirstMissing (p : Project σ) (fs : List Function) (err : BinaryError) : Prop :=
  ∃ before b after, fs.flatMap (·.blocks) = before ++ b :: after ∧
    (∀ c ∈ before, ∃ block, p.block c = .ok block) ∧ p.block b = .error err

/-- The first missing block of a function is the first one of all functions if the functions before
it have all their blocks. -/
theorem Project.FirstMissing.of_append {p : Project σ} {f : Function} {before after : List Function}
    {err : BinaryError} (hbefore : ∀ g ∈ before, ∀ b ∈ g.blocks, ∃ block, p.block b = .ok block)
    (h : p.FirstMissing [f] err) : p.FirstMissing (before ++ f :: after) err := by
  obtain ⟨passed, b, rest, hblocks, hpassed, hb⟩ := h
  rw [List.flatMap_singleton] at hblocks
  refine ⟨before.flatMap (·.blocks) ++ passed, b, rest ++ after.flatMap (·.blocks), ?_, ?_, hb⟩
  · rw [List.flatMap_append, List.flatMap_cons, hblocks]
    simp only [List.append_assoc, List.cons_append]
  · intro c hc
    rcases List.mem_append.mp hc with hc | hc
    · obtain ⟨g, hg, hc⟩ := List.mem_flatMap.mp hc
      exact hbefore g hg c hc
    · exact hpassed c hc

namespace Project

variable [SymbolicState σ] {p : Project σ} {o : Options} {x : Explorer σ} {f : Function}

/-! ### One function -/

theorem dumpFunction_lenient (hx : x.strict = false) :
    outcome (p.dumpFunction x f) =
      (f.blocks.mapM (p.blockRecord f)).mapError .binary >>= fun blocks =>
        .ok ({ f.record with paths := x.foundPaths f }, blocks) := by
  rw [outcome_dumpFunction, Explorer.outcome_exploreOrRecover_lenient hx]
  rfl

theorem exists_dumpFunction_lenient_iff (hx : x.strict = false) :
    (∃ r, outcome (p.dumpFunction x f) = .ok r) ↔
      ∀ b ∈ f.blocks, ∃ block, p.block b = .ok block := by
  rw [exists_dumpFunction_iff, and_iff_left]
  exact ⟨_, Explorer.outcome_exploreOrRecover_lenient hx⟩

/-- Whatever goes wrong with a function goes wrong with its first missing block. -/
theorem of_dumpFunction_error (hx : x.strict = false) {err : DumpError}
    (h : outcome (p.dumpFunction x f) = .error err) :
    ∃ cause, err = .binary cause ∧ p.FirstMissing [f] cause := by
  rw [dumpFunction_lenient hx, bind_eq_error_iff] at h
  rcases h with h | ⟨blocks, -, h⟩
  · -- the blocks before the failing one have records, so they are there
    obtain ⟨cause, hcause, rfl⟩ := mapError_eq_error_iff.mp h
    obtain ⟨before, b, after, hblocks, hbefore, hb⟩ := mapM_eq_error_iff.mp hcause
    refine ⟨cause, rfl, before, b, after, ?_, fun c hc => ?_, blockRecord_eq_error_iff.mp hb⟩
    · rw [List.flatMap_singleton, hblocks]
    · exact exists_blockRecord_iff.mp (hbefore c hc)
  · cases h

/-! ### All functions -/

theorem exists_dump_lenient_iff (ho : o.strict = false) :
    (∃ a, outcome (p.dump o) = .ok a) ↔ (∃ e, p.engine = .ok e) ∧
      ∀ f ∈ selectFunctions p.functions o.functions,
        ∀ b ∈ f.blocks, ∃ block, p.block b = .ok block := by
  have hfunction : ∀ e f, (∃ r, outcome (p.dumpFunction (p.explorer o e) f) = .ok r) ↔
      ∀ b ∈ f.blocks, ∃ block, p.block b = .ok block := fun e f =>
    exists_dumpFunction_lenient_iff (x := p.explorer o e) ho
  simp only [exists_dump_iff, hfunction, exists_and_right]

/-- A lenient dump fails because of its engine, or else because of the first missing block. -/
theorem of_dump_error (ho : o.strict = false) {err : DumpError}
    (h : outcome (p.dump o) = .error err) :
    ∃ cause, err = .binary cause ∧ (p.engine = .error cause ∨
      (∃ e, p.engine = .ok e) ∧
        p.FirstMissing (selectFunctions p.functions o.functions) cause) := by
  rw [outcome_dump, bind_eq_error_iff] at h
  rcases h with h | ⟨e, he, h⟩
  · obtain ⟨cause, hcause, rfl⟩ := mapError_eq_error_iff.mp h
    exact ⟨cause, rfl, Or.inl hcause⟩
  · rcases bind_eq_error_iff.mp h with h | ⟨records, -, h⟩
    · -- the functions before the failing one have records, so all their blocks are there
      obtain ⟨before, f, after, hselected, hbefore, hf⟩ := mapM_eq_error_iff.mp h
      obtain ⟨cause, rfl, hmissing⟩ := of_dumpFunction_error (x := p.explorer o e) ho hf
      refine ⟨cause, rfl, Or.inr ⟨⟨e, mapError_eq_ok_iff.mp he⟩, ?_⟩⟩
      rw [hselected]
      exact hmissing.of_append fun g hg =>
        (exists_dumpFunction_lenient_iff (x := p.explorer o e) ho).mp (hbefore g hg)
    · cases h

/-! ### The artifact -/

/-- The records of the chosen functions, in order, each with the paths that were found. -/
theorem functions_of_dump (ho : o.strict = false) {e : Engine σ} (he : p.engine = .ok e)
    {a : Artifact} (h : outcome (p.dump o) = .ok a) :
    a.functions = (selectFunctions p.functions o.functions).map
      fun f => { f.record with paths := (p.explorer o e).foundPaths f } := by
  obtain ⟨e', records, he', hrecords, rfl⟩ := dump_eq_ok_iff.mp h
  obtain rfl : e = e' := Except.ok.inj (he.symm.trans he')
  refine map_eq_of_forall₂ hrecords fun f r hr => ?_
  rw [dumpFunction_lenient ho, bind_eq_ok_iff] at hr
  obtain ⟨blocks, -, hr⟩ := hr
  rw [← Except.ok.inj hr]

/-- **In lenient mode failures are isolated.** Let the explorations of the chosen functions
terminate. Up to verbosity 1 a dump returns an artifact exactly if the engine and all blocks that
the chosen functions list are there. If it fails, then because of the engine, or else because of the
first block that is missing. Its artifact has the records of the chosen functions, in order, each
with the number of its blocks and with the paths that the exploration of this function alone finds,
or with none if that fails; and it has a record of each of their blocks, in order, with the address
of the function. -/
theorem dump_lenient (p : Project σ) (o : Options) (ho : o.verbosity ≤ 1)
    (hterminates : p.Terminates o) :
    let selected := selectFunctions p.functions o.functions
    ((∃ a, p.Returns o (.ok a)) ↔
      (∃ e, p.engine = .ok e) ∧ ∀ f ∈ selected, ∀ b ∈ f.blocks, ∃ block, p.block b = .ok block) ∧
    (∀ err, p.Returns o (.error err) → ∃ cause, err = .binary cause ∧
      (p.engine = .error cause ∨ (∃ e, p.engine = .ok e) ∧ p.FirstMissing selected cause)) ∧
    ∀ a, p.Returns o (.ok a) → ∃ e, p.engine = .ok e ∧
      a.binary = p.info ∧
      a.functions = selected.map (fun f =>
        { f.record with paths := (p.explorer o e).foundPaths f }) ∧
      (∀ r ∈ a.functions, r.blockCount = .ofNat r.blocks.length) ∧
      a.blocks.map Except.ok = selected.flatMap (fun f => f.blocks.map (p.blockRecord f)) ∧
      a.blocks.map (fun r => (r.address, r.function)) =
        selected.flatMap fun f => f.blocks.map fun b => (b, f.address) := by
  intro selected
  have hlenient := Options.strict_eq_false ho
  refine ⟨?_, fun err h => of_dump_error hlenient h.2, fun a h => ?_⟩
  · rw [← exists_dump_lenient_iff hlenient]
    constructor
    · exact fun ⟨a, h⟩ => ⟨a, h.2⟩
    · exact fun ⟨a, h⟩ => ⟨a, hterminates, h⟩
  · obtain ⟨e, he⟩ := ((exists_dump_lenient_iff hlenient).mp ⟨a, h.2⟩).1
    have hfunctions := functions_of_dump hlenient he h.2
    refine ⟨e, he, binary_of_dump h.2, hfunctions, fun r hr => ?_, ?_, ?_⟩
    · rw [hfunctions] at hr
      obtain ⟨f, -, rfl⟩ := List.mem_map.mp hr
      rfl
    · -- a record is known by the equation that gives it
      exact blocks_of_dump (fun f b r hr => hr.symm) h.2
    · refine blocks_of_dump (fun f b r hr => ?_) h.2
      obtain ⟨haddress, hfunction⟩ := address_of_blockRecord hr
      rw [haddress, hfunction]

/-- The walker cannot enter the second function. Its exploration fails, its records stay, and the
first function keeps its paths. -/
theorem dump_lenient_lasso :
    lasso.Terminates {} ∧
    ∃ a e, lasso.Returns {} (.ok a) ∧ lasso.engine = .ok e ∧
      a.functions = [⟨1, "loop", 3, 0, [1, 2, 3], [3], (lasso.explorer {} e).foundPaths
          ⟨1, "loop", 0, [1, 2, 3], [3]⟩⟩,
        ⟨4, "stray", 1, 0, [4], [], []⟩] ∧
      a.blocks.map (fun r => (r.address, r.function)) = [(1, 1), (2, 1), (3, 1), (4, 4)] := by
  have hterminates : lasso.Terminates {} := by
    intro e he f _
    obtain rfl : Graph.lasso.walker = e := Except.ok.inj he
    exact Explorer.terminates_walker Graph.lasso [1, 4] 1 _ _ _ f
  have hthere : ∀ b ∈ [1, 2, 3, 4], ∃ block, lasso.block b = .ok block := by
    simp only [List.forall_mem_cons, List.not_mem_nil, false_imp_iff, implies_true, and_true]
    exact ⟨⟨_, rfl⟩, ⟨_, rfl⟩, ⟨_, rfl⟩, ⟨_, rfl⟩⟩
  have hblocks : ∀ f ∈ lasso.functions, ∀ b ∈ f.blocks, ∃ block, lasso.block b = .ok block :=
    fun f hf b hb => hthere b (List.mem_flatMap.mpr ⟨f, hf, hb⟩)
  obtain ⟨hok, -, hartifact⟩ := dump_lenient lasso {} (by decide) hterminates
  obtain ⟨a, ha⟩ := hok.mpr ⟨⟨_, rfl⟩, hblocks⟩
  obtain ⟨e, he, -, hfunctions, -, -, hplaces⟩ := hartifact a ha
  obtain rfl : Graph.lasso.walker = e := Except.ok.inj he
  exact ⟨hterminates, a, _, ha, he, hfunctions, hplaces⟩

end Project

end SymbolicPaths
