import SymbolicPaths.Dump
import SymbolicPaths.Proofs.ExplorerLaws
import SymbolicPaths.Proofs.Walker

/-!
# Laws of dumps

How dumps end, without the journal. A dump fails with its engine, with the first function whose
records or paths cannot be had, or not at all (`Project.outcome_dump`); it succeeds exactly if every
chosen function has records and paths, and its artifact is made of them (`Project.dump_eq_ok_iff`).

A dump is over only if the explorations of the chosen functions are. `Project.Terminates` says so,
and `Project.Returns` is how a dump that is over has ended.
-/

namespace SymbolicPaths

variable {σ : Type}

/-! ### Extraction -/

theorem mem_of_mem_selectFunctions {functions : List Function} {filter : Option NameSet}
    {f : Function} (h : f ∈ selectFunctions functions filter) : f ∈ functions := by
  cases filter with
  | none => exact h
  | some names => exact List.mem_of_mem_filter h

/-- The record of a block names the block and its function. -/
theorem Block.address_record (b : Block) (a function : Address) :
    (b.record a function).value.address = a ∧ (b.record a function).value.function = function := by
  unfold record
  cases b.code with
  | ok code => exact ⟨rfl, rfl⟩
  | error err => exact ⟨rfl, rfl⟩

/-- The record of a block of `f`, if there is a block at this address. -/
def Project.blockRecord (p : Project σ) (f : Function) (a : Address) :
    Except BinaryError BlockRecord :=
  p.block a >>= fun b => .ok (b.record a f.address).value

namespace Project

variable {p : Project σ} {f : Function}

theorem exists_block_iff {a : Address} : (∃ b, p.block a = .ok b) ↔ a ∈ p.blocks := by
  unfold block
  rw [Std.ExtTreeMap.mem_iff_isSome_getElem?]
  cases p.blocks[a]? with
  | none => simp
  | some b => simp

/-- A block has a record exactly if it is there. -/
theorem blockRecord_eq_error_iff {a : Address} {err : BinaryError} :
    p.blockRecord f a = .error err ↔ p.block a = .error err := by
  rw [blockRecord, bind_eq_error_iff]
  simp

theorem exists_blockRecord_iff {a : Address} :
    (∃ r, p.blockRecord f a = .ok r) ↔ ∃ b, p.block a = .ok b := by
  simp only [blockRecord, bind_eq_ok_iff]
  constructor
  · rintro ⟨r, b, hb, -⟩
    exact ⟨b, hb⟩
  · rintro ⟨b, hb⟩
    exact ⟨_, b, hb, rfl⟩

theorem address_of_blockRecord {a : Address} {r : BlockRecord} (h : p.blockRecord f a = .ok r) :
    r.address = a ∧ r.function = f.address := by
  obtain ⟨b, -, h⟩ := bind_eq_ok_iff.mp h
  obtain rfl := Except.ok.inj h
  exact b.address_record a f.address

theorem outcome_extract (p : Project σ) (f : Function) :
    outcome (p.extract f) =
      f.blocks.mapM (p.blockRecord f) >>= fun blocks => .ok (f.record, blocks) := by
  -- what a block reports about itself is lost with the journal
  have hblock : (fun a => outcome (do
      let b ← p.block a
      b.record a f.address : ExceptT BinaryError Journaled BlockRecord)) = p.blockRecord f := by
    funext a
    rw [outcome_bind]
    rfl
  unfold extract
  rw [outcome_bind, outcome_mapM, hblock]
  rfl

end Project

/-! ### Exploration -/

variable [SymbolicState σ]

namespace Explorer

variable {x : Explorer σ} {f : Function}

/-- The paths of a function if its exploration succeeds, and none if it fails. -/
def foundPaths (x : Explorer σ) (f : Function) : List ExecutionPath :=
  match outcome (x.explore f) with
  | .ok paths => paths
  | .error _ => []

/-- A lenient explorer never fails. -/
theorem outcome_exploreOrRecover_lenient (hx : x.strict = false) :
    outcome (x.exploreOrRecover f) = .ok (x.foundPaths f) := by
  unfold exploreOrRecover foundPaths
  cases h : outcome (x.explore f) with
  | ok paths => exact outcome_tryCatch_ok _ h
  | error err =>
    -- a lenient handler reports the error and gives no path
    rw [outcome_tryCatch_error _ h, hx]
    rfl

/-- A strict explorer recovers from nothing. -/
theorem outcome_exploreOrRecover_strict (hx : x.strict = true) :
    outcome (x.exploreOrRecover f) = outcome (x.explore f) := by
  unfold exploreOrRecover
  cases h : outcome (x.explore f) with
  | ok paths => exact outcome_tryCatch_ok _ h
  | error err =>
    rw [outcome_tryCatch_error _ h, hx]
    rfl

/-- Only a strict explorer fails where the exploration does. -/
theorem exists_exploreOrRecover_iff :
    (∃ paths, outcome (x.exploreOrRecover f) = .ok paths) ↔
      (x.strict = true → ∃ paths, outcome (x.explore f) = .ok paths) := by
  cases hx : x.strict with
  | false => simp [outcome_exploreOrRecover_lenient hx]
  | true => simp [outcome_exploreOrRecover_strict hx]

/-- Paths come from an exploration that has succeeded. -/
theorem eq_nil_or_explore_of_exploreOrRecover {paths : List ExecutionPath}
    (h : outcome (x.exploreOrRecover f) = .ok paths) :
    paths = [] ∨ outcome (x.explore f) = .ok paths := by
  cases hx : x.strict with
  | true =>
    rw [outcome_exploreOrRecover_strict hx] at h
    exact Or.inr h
  | false =>
    rw [outcome_exploreOrRecover_lenient hx, foundPaths] at h
    cases hexplore : outcome (x.explore f) with
    | ok found =>
      rw [hexplore] at h
      exact Or.inr h
    | error err =>
      rw [hexplore] at h
      exact Or.inl (Except.ok.inj h).symm

end Explorer

/-! ### Dumps -/

/-- Up to verbosity 1 nothing is strict. -/
theorem Options.strict_eq_false {o : Options} (ho : o.verbosity ≤ 1) : o.strict = false := by
  unfold strict
  exact decide_eq_false (UInt8.not_lt.mpr ho)

/-- From verbosity 2 on everything is strict. -/
theorem Options.strict_eq_true {o : Options} (ho : 2 ≤ o.verbosity) : o.strict = true := by
  unfold strict
  rw [decide_eq_true_iff, UInt8.lt_iff_toNat_lt]
  exact UInt8.le_iff_toNat_le.mp ho

namespace Project

variable {p : Project σ} {o : Options} {x : Explorer σ} {f : Function}

theorem outcome_dumpFunction (p : Project σ) (x : Explorer σ) (f : Function) :
    outcome (p.dumpFunction x f) =
      (f.blocks.mapM (p.blockRecord f)).mapError .binary >>= fun blocks =>
        (outcome (x.exploreOrRecover f)).mapError .exploration >>= fun paths =>
          .ok ({ f.record with paths }, blocks) := by
  unfold dumpFunction
  simp only [outcome_bind, outcome_adapt, outcome_extract]
  cases f.blocks.mapM (p.blockRecord f) with
  | error err => rfl
  | ok blocks => rfl

theorem dumpFunction_eq_ok_iff {r : FunctionRecord × List BlockRecord} :
    outcome (p.dumpFunction x f) = .ok r ↔
      ∃ blocks paths, f.blocks.mapM (p.blockRecord f) = .ok blocks ∧
        outcome (x.exploreOrRecover f) = .ok paths ∧ r = ({ f.record with paths }, blocks) := by
  simp only [outcome_dumpFunction, bind_eq_ok_iff, mapError_eq_ok_iff, Except.ok.injEq]
  constructor
  · rintro ⟨blocks, hblocks, paths, hpaths, rfl⟩
    exact ⟨blocks, paths, hblocks, hpaths, rfl⟩
  · rintro ⟨blocks, paths, hblocks, hpaths, rfl⟩
    exact ⟨blocks, hblocks, paths, hpaths, rfl⟩

/-- The records of a function can be had if its blocks are there and it can be explored. -/
theorem exists_dumpFunction_iff :
    (∃ r, outcome (p.dumpFunction x f) = .ok r) ↔
      (∀ b ∈ f.blocks, ∃ block, p.block b = .ok block) ∧
      ∃ paths, outcome (x.exploreOrRecover f) = .ok paths := by
  simp only [dumpFunction_eq_ok_iff, ← exists_blockRecord_iff (f := f), ← exists_mapM_eq_ok_iff]
  constructor
  · rintro ⟨r, blocks, paths, hblocks, hpaths, -⟩
    exact ⟨⟨blocks, hblocks⟩, paths, hpaths⟩
  · rintro ⟨⟨blocks, hblocks⟩, paths, hpaths⟩
    exact ⟨_, blocks, paths, hblocks, hpaths, rfl⟩

/-- The records of a function bear its name, and they hold as many blocks as it has. -/
theorem of_dumpFunction {r : FunctionRecord × List BlockRecord}
    (h : outcome (p.dumpFunction x f) = .ok r) :
    r.1.name = f.name ∧ r.1.blocks = f.blocks ∧ r.1.blockCount = .ofNat f.blocks.length ∧
      r.2.length = f.blocks.length := by
  obtain ⟨blocks, paths, hblocks, -, rfl⟩ := dumpFunction_eq_ok_iff.mp h
  exact ⟨rfl, rfl, rfl, (mapM_eq_ok_iff.mp hblocks).length_eq.symm⟩

theorem outcome_dump (p : Project σ) (o : Options) :
    outcome (p.dump o) =
      p.engine.mapError .binary >>= fun e =>
        (selectFunctions p.functions o.functions).mapM
            (fun f => outcome (p.dumpFunction (p.explorer o e) f)) >>= fun records =>
          .ok ⟨p.info, records.map (·.1), records.flatMap (·.2)⟩ := by
  unfold dump
  simp only [outcome_bind, outcome_adapt, outcome_mapM, outcome_pure]
  cases p.engine with
  | error err => rfl
  | ok e => rfl

/-- The artifact of a dump is made of the records of the chosen functions. -/
theorem dump_eq_ok_iff {a : Artifact} :
    outcome (p.dump o) = .ok a ↔
      ∃ e records, p.engine = .ok e ∧
        List.Forall₂ (fun f r => outcome (p.dumpFunction (p.explorer o e) f) = .ok r)
          (selectFunctions p.functions o.functions) records ∧
        a = ⟨p.info, records.map (·.1), records.flatMap (·.2)⟩ := by
  simp only [outcome_dump, bind_eq_ok_iff, mapError_eq_ok_iff, mapM_eq_ok_iff, Except.ok.injEq]
  constructor
  · rintro ⟨e, he, records, hrecords, rfl⟩
    exact ⟨e, records, he, hrecords, rfl⟩
  · rintro ⟨e, records, he, hrecords, rfl⟩
    exact ⟨e, he, records, hrecords, rfl⟩

/-- A dump succeeds exactly if the engine and the records of all chosen functions can be had. -/
theorem exists_dump_iff :
    (∃ a, outcome (p.dump o) = .ok a) ↔ ∃ e, p.engine = .ok e ∧
      ∀ f ∈ selectFunctions p.functions o.functions,
        ∃ r, outcome (p.dumpFunction (p.explorer o e) f) = .ok r := by
  simp only [dump_eq_ok_iff, ← mapM_eq_ok_iff, ← exists_mapM_eq_ok_iff]
  constructor
  · rintro ⟨a, e, records, he, hrecords, -⟩
    exact ⟨e, he, records, hrecords⟩
  · rintro ⟨e, he, records, hrecords⟩
    exact ⟨_, e, records, he, hrecords, rfl⟩

theorem binary_of_dump {a : Artifact} (h : outcome (p.dump o) = .ok a) : a.binary = p.info := by
  obtain ⟨e, records, -, -, rfl⟩ := dump_eq_ok_iff.mp h
  rfl

/-- What the record of a block says about the block can be read off the blocks of the chosen
functions, function by function. -/
theorem blocks_of_dump {γ : Type} {g : Function → Address → γ} {said : BlockRecord → γ}
    {a : Artifact} (hsaid : ∀ f b r, p.blockRecord f b = .ok r → said r = g f b)
    (h : outcome (p.dump o) = .ok a) :
    a.blocks.map said =
      (selectFunctions p.functions o.functions).flatMap fun f => f.blocks.map (g f) := by
  obtain ⟨e, records, -, hrecords, rfl⟩ := dump_eq_ok_iff.mp h
  dsimp only
  -- the groups of the functions agree one by one, hence what they are put together to
  rw [List.map_flatMap, List.flatMap_def, List.flatMap_def]
  refine congrArg _ (map_eq_of_forall₂ hrecords fun f r hr => ?_)
  obtain ⟨blocks, paths, hblocks, -, rfl⟩ := dumpFunction_eq_ok_iff.mp hr
  exact map_eq_of_forall₂ (mapM_eq_ok_iff.mp hblocks) (hsaid f)

/-- The explorations of the chosen functions come to an end. -/
def Terminates (p : Project σ) (o : Options) : Prop :=
  ∀ e, p.engine = .ok e → ∀ f ∈ selectFunctions p.functions o.functions,
    (p.explorer o e).Terminates f

/-- The dump comes to an end, and this is how. -/
def Returns (p : Project σ) (o : Options) (result : Except DumpError Artifact) : Prop :=
  p.Terminates o ∧ outcome (p.dump o) = result

/-- A dump that is over has either returned an artifact or failed. -/
theorem Terminates.exists_error_iff (h : p.Terminates o) :
    (∃ err, outcome (p.dump o) = .error err) ↔ ¬ ∃ a, p.Returns o (.ok a) := by
  cases hdump : outcome (p.dump o) with
  | ok a =>
    have ha : p.Returns o (.ok a) := ⟨h, hdump⟩
    exact iff_of_false (by simp) (not_not_intro ⟨a, ha⟩)
  | error err =>
    refine iff_of_true ⟨err, rfl⟩ ?_
    rintro ⟨a, -, ha⟩
    rw [hdump] at ha
    cases ha

/-- A loop with an exit as a function, and a second function outside of the graph, which the walker
cannot enter. -/
def lasso : Project WalkState where
  info := ⟨⟨"x86_64", 64, .little⟩, 1, ∅⟩
  functions := [⟨1, "loop", 0, [1, 2, 3], [3]⟩, ⟨4, "stray", 0, [4], []⟩]
  blocks := .ofList ([1, 2, 3, 4].map fun a : Address => (a, (⟨4, [], .ok []⟩ : Block)))
  graph := Graph.lasso
  engine := .ok Graph.lasso.walker

end Project

end SymbolicPaths
