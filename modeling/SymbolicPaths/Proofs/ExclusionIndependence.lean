import Mathlib.Data.List.Basic
import Mathlib.Data.List.Forall2
import SymbolicPaths.Proofs.LenientDump
import SymbolicPaths.Proofs.StashDiscipline
import SymbolicPaths.Proofs.Tracelets

/-!
# Register exclusions do not influence exploration

Which registers are left out decides what the solver is asked for, and evaluated paths decide which
blocks are claimed, hence where later tracelets start and stop. Still, two dumps that differ in the
excluded registers alone explore the same code, as long as the solver always answers
(`Project.dump_exclusions`): they fail alike, or their artifacts say the same about the binary, its
blocks and its functions, and the paths have the same histories, one by one. Where more registers
are excluded, paths can only lose unknowns.

The reason is that an evaluation that cannot fail contributes nothing to the exploration but the
history of its state, and this does not depend on what is asked. The two dumps are compared step by
step. `Agree` says that two computations fail alike or succeed with related results; it is kept by
sequences (`Agree.bind`), by going through a list (`Agree.mapM`) and by wrapping errors
(`Agree.mapError`). Paths that agree have equal histories, so that the same blocks are claimed after
each start (`agree_tracelets`).

That the solver always answers is required only of states that the engine can make and of unknowns
that they have, so that recorded states have to be traced back to the engine (`Stashes.FromEngine`).
-/

namespace SymbolicPaths

open SymbolicState

/-! ### Comparing outcomes -/

section Agree

variable {ε ε' α β γ δ : Type} {R : α → β → Prop} {S : γ → δ → Prop} {x : Except ε α}
  {y : Except ε β}

/-- The two computations fail alike, or they succeed with related results. -/
inductive Agree (R : α → β → Prop) : Except ε α → Except ε β → Prop
  | error (err : ε) : Agree R (.error err) (.error err)
  | ok {a : α} {b : β} : R a b → Agree R (.ok a) (.ok b)

namespace Agree

theorem refl (x : Except ε α) : Agree Eq x x := by
  cases x with
  | error err => exact .error err
  | ok a => exact .ok rfl

theorem ends (h : Agree R x y) :
    (∃ err, x = .error err ∧ y = .error err) ∨ ∃ a b, x = .ok a ∧ y = .ok b ∧ R a b := by
  cases h with
  | error err => exact Or.inl ⟨err, rfl, rfl⟩
  | ok hab => exact Or.inr ⟨_, _, rfl, rfl, hab⟩

/-- The rests of two sequences are compared if the first parts succeed. -/
theorem bind {f : α → Except ε γ} {g : β → Except ε δ} (h : Agree R x y)
    (hrest : ∀ a b, x = .ok a → R a b → Agree S (f a) (g b)) : Agree S (x >>= f) (y >>= g) := by
  cases h with
  | error err => exact .error err
  | ok hab => exact hrest _ _ rfl hab

theorem mapError (wrap : ε → ε') (h : Agree R x y) :
    Agree R (x.mapError wrap) (y.mapError wrap) := by
  cases h with
  | error err => exact .error (wrap err)
  | ok hab => exact .ok hab

theorem mapM {f : α → Except ε γ} {g : α → Except ε δ} {as : List α}
    (h : ∀ a ∈ as, Agree S (f a) (g a)) : Agree (List.Forall₂ S) (as.mapM f) (as.mapM g) := by
  induction as with
  | nil => exact .ok .nil
  | cons a rest ih =>
    rw [List.mapM_cons, List.mapM_cons]
    have hlater := ih fun b hb => h b (List.mem_cons_of_mem _ hb)
    refine (h a List.mem_cons_self).bind fun c d _ hcd => ?_
    exact hlater.bind fun cs ds _ hcs => .ok (.cons hcd hcs)

end Agree

end Agree

variable {σ : Type} [SymbolicState σ]

/-! ### One state -/

/-- Whichever of its unknowns the solver is asked for, it answers. -/
def SymbolicState.Answers (s : σ) : Prop :=
  ∀ wanted, wanted.Sublist (unknowns s) → wanted ≠ [] → ∃ values, resolve s wanted = .ok values

namespace Evaluator

variable {e d : Evaluator} {s : σ}

/-- What the two evaluators make of one state: the histories are equal, and if the second one leaves
out whatever the first one does, then it finds no other unknowns. -/
structure Narrows (e d : Evaluator) (q q' : ExecutionPath) : Prop where
  history : q'.history = q.history
  unknowns : (∀ offset ∈ e.excluded, offset ∈ d.excluded) → q'.unknowns.Sublist q.unknowns

/-- A lenient evaluator finds all texts that there are. -/
theorem exists_texts (he : e.strict = false) (pairs : List (Variable × Nat)) :
    ∃ texts, outcome (e.texts pairs) = .ok texts := by
  rw [outcome_texts, objection?_of_lenient he]
  exact ⟨_, rfl⟩

theorem exists_solve (hs : Answers s) {wanted : List Variable}
    (hwanted : wanted.Sublist (unknowns s)) : ∃ values, outcome (solve s wanted) = .ok values := by
  rw [outcome_solve]
  split
  · exact ⟨[], rfl⟩
  · next hne =>
    obtain ⟨values, hvalues⟩ := hs wanted hwanted hne
    rw [hvalues]
    exact ⟨values, rfl⟩

/-- A lenient evaluator makes a path of every state that answers. -/
theorem exists_evaluate (he : e.strict = false) (hs : Answers s) :
    ∃ texts, outcome (e.evaluate s) = .ok ⟨(e.kept s).map (·.key.name), texts, history s⟩ := by
  have hkept : (e.kept s).Sublist (unknowns s) := List.filter_sublist
  obtain ⟨values, hvalues⟩ := exists_solve hs hkept
  obtain ⟨texts, htexts⟩ := exists_texts he ((e.kept s).zip values)
  refine ⟨texts, ?_⟩
  rw [outcome_evaluate, hvalues, ok_bind, htexts, ok_bind]

/-- Fewer variables are kept where more registers are excluded. -/
theorem kept_sublist (h : ∀ offset ∈ e.excluded, offset ∈ d.excluded) (s : σ) :
    (d.kept s).Sublist (e.kept s) := by
  refine List.monotone_filter_right _ fun v hv => ?_
  rw [Variable.isKept_iff] at hv ⊢
  exact fun offset hoffset => hv offset (h offset hoffset)

theorem agree_evaluate (he : e.strict = false) (hd : d.strict = false) (hs : Answers s) :
    Agree (Narrows e d) (outcome (e.evaluate s)) (outcome (d.evaluate s)) := by
  obtain ⟨texts, htexts⟩ := exists_evaluate he hs
  obtain ⟨texts', htexts'⟩ := exists_evaluate hd hs
  rw [htexts, htexts']
  exact .ok ⟨rfl, fun h => (kept_sublist h s).map _⟩

/-- What is claimed after a start depends on histories alone. -/
theorem Narrows.flatMap_history {paths paths' : List ExecutionPath}
    (h : List.Forall₂ (Narrows e d) paths paths') :
    paths'.flatMap (·.history) = paths.flatMap (·.history) := by
  rw [List.flatMap_def, List.flatMap_def]
  exact congrArg List.flatten (map_eq_of_forall₂ h fun q q' hq => hq.history)

end Evaluator

/-! ### Recorded states come from the engine -/

namespace Stashes

variable {e : Engine σ} {l : LoopBound} {m : Stashes σ}

omit [SymbolicState σ] in
/-- All recorded states are states that the engine can make. -/
def FromEngine (e : Engine σ) (m : Stashes σ) : Prop :=
  ∀ s ∈ m.recorded, e.Reachable s

omit [SymbolicState σ] in
theorem FromEngine.start {a : Address} {s : σ} (hs : e.entry a = .ok s) :
    FromEngine e (.start s) := by
  intro t ht
  obtain rfl : t = s := List.mem_singleton.mp ht
  exact .entry hs

omit [SymbolicState σ] in
theorem FromEngine.stopActive (h : FromEngine e m) (p : σ → Bool) : FromEngine e (m.stopActive p) :=
  fun s hs => h s ((mem_recorded_stopActive p).mp hs)

theorem FromEngine.next (h : FromEngine e m) : FromEngine e (m.next e l) := by
  intro t ht
  rcases mem_recorded_next ht with ht | ⟨s, hs, next, hnext, ht⟩
  · exact h t ht
  · exact .step (h s (mem_recorded.mpr (Or.inl hs))) hnext ht

end Stashes

/-! ### One function -/

namespace Explorer

variable {x : Explorer σ} {d : Evaluator} {f : Function}

omit [SymbolicState σ] in
/-- The same explorer with another evaluator. -/
def evaluating (x : Explorer σ) (d : Evaluator) : Explorer σ :=
  { x with evaluator := d }

section Narrows

variable (hx : x.evaluator.strict = false) (hd : d.strict = false)
  (hanswers : ∀ s, x.engine.Reachable s → Answers s)

include hx hd hanswers

/-- Several states that come from the engine. -/
theorem agree_evaluateAll {ss : List σ} (hss : ∀ s ∈ ss, x.engine.Reachable s) :
    Agree (List.Forall₂ (x.evaluator.Narrows d)) (ss.mapM fun s => outcome (x.evaluate f s))
      (ss.mapM fun s => outcome ((x.evaluating d).evaluate f s)) := by
  refine Agree.mapM fun s hs => ?_
  rw [outcome_evaluate, outcome_evaluate]
  exact (Evaluator.agree_evaluate hx hd (hanswers s (hss s hs))).mapError _

/-- **One start.** Both runs have the same rounds. -/
theorem agree_traceletFrom (steps : Nat) (claimed : AddressSet) (start : Address) :
    Agree (List.Forall₂ (x.evaluator.Narrows d)) (outcome (x.traceletFrom f steps claimed start))
      (outcome ((x.evaluating d).traceletFrom f steps claimed start)) := by
  rw [outcome_traceletFrom, outcome_traceletFrom]
  refine (Agree.refl _).bind fun m m' hm hsame => ?_
  subst hsame
  obtain ⟨entry, hentry, rfl⟩ := exists_entry_of_enter hm
  rw [outcome_traceletRounds_congr (x := x.evaluating d) (y := x) rfl rfl]
  refine (Agree.refl _).bind fun m m' hm hsame => ?_
  subst hsame
  have hrecorded : m.FromEngine x.engine :=
    of_traceletRounds (fun m hm => ⟨hm.stopActive _, (hm.stopActive _).next⟩) (.start hentry) hm
  exact agree_evaluateAll hx hd hanswers hrecorded

/-- **All starts.** The paths of a start have the same histories in both runs, so that the same
blocks are claimed for the later ones. -/
theorem agree_tracelets (steps : Nat) (allowOverlap : Bool) (claimed : AddressSet)
    (starts : List Address) :
    Agree (List.Forall₂ (List.Forall₂ (x.evaluator.Narrows d)))
      (outcome (x.tracelets f steps allowOverlap claimed starts))
      (outcome ((x.evaluating d).tracelets f steps allowOverlap claimed starts)) := by
  induction starts generalizing claimed with
  | nil => exact .ok .nil
  | cons start starts ih =>
    rw [outcome_tracelets_cons, outcome_tracelets_cons]
    have hstart : Agree (List.Forall₂ (x.evaluator.Narrows d))
        (if claimed.contains start then .ok [] else outcome (x.traceletFrom f steps claimed start))
        (if claimed.contains start then .ok []
          else outcome ((x.evaluating d).traceletFrom f steps claimed start)) := by
      split
      · exact .ok .nil
      · exact agree_traceletFrom hx hd hanswers steps claimed start
    refine hstart.bind fun paths paths' _ hpaths => ?_
    rw [Evaluator.Narrows.flatMap_history hpaths]
    exact (ih _).bind fun later later' _ hlater => .ok (.cons hpaths hlater)

theorem agree_exploreFull (hmode : x.mode = .full) (hterminates : x.Terminates f) :
    Agree (List.Forall₂ (x.evaluator.Narrows d)) (outcome (x.exploreFull f))
      (outcome ((x.evaluating d).exploreFull f)) := by
  cases hentry : x.engine.entry f.address with
  | error err =>
    rw [outcome_exploreFull_error hentry, outcome_exploreFull_error (x := x.evaluating d) hentry]
    exact .error _
  | ok s =>
    rw [outcome_exploreFull hentry, outcome_exploreFull (x := x.evaluating d) hentry]
    dsimp only [evaluating]
    cases herr : ((Stashes.start s).run x.engine x.loopBound).value.2 with
    | some err => exact .error _
    | none =>
      -- the run is a finite number of rounds, so that its dead ends come from the engine
      obtain ⟨n, hstops⟩ := hterminates hmode s hentry
      have hrun : ((Stashes.start s).run x.engine x.loopBound).value.1.FromEngine x.engine :=
        hstops.run_of_next (fun m hm => hm.next) (.start hentry)
      exact agree_evaluateAll hx hd hanswers fun t ht =>
        hrun t (Stashes.mem_recorded.mpr (Or.inr (Or.inl ht)))

theorem agree_explore (hterminates : x.Terminates f) :
    Agree (List.Forall₂ (x.evaluator.Narrows d)) (outcome (x.explore f))
      (outcome ((x.evaluating d).explore f)) := by
  cases hmode : x.mode with
  | full =>
    unfold explore
    simp only [evaluating, hmode]
    exact agree_exploreFull hx hd hanswers hmode hterminates
  | tracelet steps allowOverlap =>
    rw [explore_tracelet hmode, explore_tracelet (x := x.evaluating d) hmode]
    have hgroups := agree_tracelets (f := f) hx hd hanswers steps.toNat allowOverlap ∅ f.blocks
    exact hgroups.bind fun groups groups' _ h => .ok (List.rel_flatten h)

/-- Where one exploration fails, the other one does, and no path is found. -/
theorem forall₂_foundPaths (hterminates : x.Terminates f) :
    List.Forall₂ (x.evaluator.Narrows d) (x.foundPaths f) ((x.evaluating d).foundPaths f) := by
  unfold foundPaths
  rcases (agree_explore hx hd hanswers hterminates).ends with
    ⟨err, h, h'⟩ | ⟨paths, paths', h, h', hpaths⟩
  · rw [h, h']
    exact .nil
  · rw [h, h']
    exact hpaths

end Narrows

end Explorer

/-! ### Dumps -/

/-- The records of a function and of its blocks under the two evaluators: they differ in the paths
alone, and these compare one by one. -/
structure Evaluator.NarrowsRecords (e d : Evaluator) (r r' : FunctionRecord × List BlockRecord) :
    Prop where
  function : { r'.1 with paths := r.1.paths } = r.1
  blocks : r'.2 = r.2
  paths : List.Forall₂ (e.Narrows d) r.1.paths r'.1.paths

/-- Two records of a function with the same walks: they agree but for what is unknown along the
paths. -/
structure FunctionRecord.SameWalks (r r' : FunctionRecord) : Prop where
  function : { r' with paths := r.paths } = r
  histories : r'.paths.map (·.history) = r.paths.map (·.history)

namespace Project

variable {p : Project σ} {o : Options}

theorem agree_dumpFunction {x : Explorer σ} {d : Evaluator} {f : Function}
    (hstrict : x.strict = false) (hx : x.evaluator.strict = false) (hd : d.strict = false)
    (hanswers : ∀ s, x.engine.Reachable s → Answers s) (hterminates : x.Terminates f) :
    Agree (x.evaluator.NarrowsRecords d) (outcome (p.dumpFunction x f))
      (outcome (p.dumpFunction (x.evaluating d) f)) := by
  rw [dumpFunction_lenient hstrict, dumpFunction_lenient (x := x.evaluating d) hstrict]
  -- the records of the blocks come first, and no explorer has a part in them
  refine (Agree.refl _).bind fun blocks blocks' _ hsame => ?_
  subst hsame
  exact .ok ⟨rfl, rfl, Explorer.forall₂_foundPaths hx hd hanswers hterminates⟩

/-- The evaluator that the options ask for. -/
def evaluator (p : Project σ) (o : Options) : Evaluator :=
  ⟨o.exclusionTable.offsetsFor p.info.architecture.name, o.strict⟩

/-- **All functions.** -/
theorem agree_dump (hstrict : o.strict = false)
    (hanswers : ∀ e, p.engine = .ok e → ∀ s, e.Reachable s → Answers s)
    (hterminates : p.Terminates o) (exclusions : Std.ExtTreeMap String (List UInt64)) :
    let o' := { o with registerExclusions := exclusions }
    Agree (fun a a' => ∃ records records',
      List.Forall₂ ((p.evaluator o).NarrowsRecords (p.evaluator o'))
        records records' ∧ a = ⟨p.info, records.map (·.1), records.flatMap (·.2)⟩ ∧
        a' = ⟨p.info, records'.map (·.1), records'.flatMap (·.2)⟩)
      (outcome (p.dump o)) (outcome (p.dump o')) := by
  intro o'
  rw [outcome_dump, outcome_dump]
  refine (Agree.refl _).bind fun e e' he hsame => ?_
  subst hsame
  have he := mapError_eq_ok_iff.mp he
  refine (Agree.mapM fun f hf => ?_).bind fun records records' _ hrecords =>
    .ok ⟨records, records', hrecords, rfl, rfl⟩
  exact agree_dumpFunction (x := p.explorer o e) hstrict hstrict hstrict (hanswers e he)
    (hterminates e he f hf)

/-- **Register exclusions do not influence exploration.** Let the solver answer whenever it is asked
for unknowns of a state that the engine can make. Up to verbosity 1 two dumps that differ in the
register exclusions alone terminate both or neither. If they do, then either both fail, because of
the binary and for the same reason, or both return artifacts. These agree about the binary, its
blocks and its functions; they have equally many paths for each function, and one by one these have
the same history. If whatever is excluded for the architecture of the binary in the first dump is
also excluded in the second one, then the unknowns of each path there are a sublist of those
here. -/
theorem dump_exclusions (p : Project σ) (o : Options)
    (exclusions : Std.ExtTreeMap String (List UInt64)) (ho : o.verbosity ≤ 1)
    (hanswers : ∀ e, p.engine = .ok e → ∀ s, e.Reachable s → Answers s) :
    let o' := { o with registerExclusions := exclusions }
    (p.Terminates o ↔ p.Terminates o') ∧
    (p.Terminates o →
      (∃ cause, p.Returns o (.error (.binary cause)) ∧ p.Returns o' (.error (.binary cause))) ∨
      ∃ a a', p.Returns o (.ok a) ∧ p.Returns o' (.ok a') ∧
        a'.binary = a.binary ∧ a'.blocks = a.blocks ∧
        List.Forall₂ FunctionRecord.SameWalks a.functions a'.functions ∧
        ((∀ offset ∈ o.exclusionTable.offsetsFor p.info.architecture.name,
            offset ∈ o'.exclusionTable.offsetsFor p.info.architecture.name) →
          List.Forall₂ (fun r r' =>
              List.Forall₂ (fun q q' => q'.unknowns.Sublist q.unknowns) r.paths r'.paths)
            a.functions a'.functions)) := by
  intro o'
  have hstrict := Options.strict_eq_false ho
  -- explorations terminate or not whatever is asked about their states
  have hterminates : p.Terminates o → p.Terminates o' := id
  refine ⟨Iff.rfl, fun h => ?_⟩
  rcases (agree_dump hstrict hanswers h exclusions).ends with
    ⟨err, herr, herr'⟩ | ⟨a, a', ha, ha', records, records', hrecords, rfl, rfl⟩
  · obtain ⟨cause, rfl, -⟩ := of_dump_error hstrict herr
    exact Or.inl ⟨cause, ⟨h, herr⟩, hterminates h, herr'⟩
  · refine Or.inr ⟨_, _, ⟨h, ha⟩, ⟨hterminates h, ha'⟩, rfl, ?_, ?_, fun hmore => ?_⟩
    · dsimp only
      rw [List.flatMap_def, List.flatMap_def]
      exact congrArg List.flatten (map_eq_of_forall₂ hrecords fun r r' hr => hr.blocks)
    · rw [List.forall₂_map_left_iff, List.forall₂_map_right_iff]
      refine hrecords.imp fun r r' hr => ⟨hr.function, ?_⟩
      exact map_eq_of_forall₂ hr.paths fun q q' hq => hq.history
    · rw [List.forall₂_map_left_iff, List.forall₂_map_right_iff]
      exact hrecords.imp fun r r' hr => hr.paths.imp fun q q' hq => hq.unknowns hmore

end Project

/-- A state of the control-flow walker that has two registers and a byte of memory as inputs. -/
structure InputState where
  place : WalkState

instance : SymbolicState InputState where
  address s := s.place.address
  history s := s.place.history
  halted s := s.place.halted
  unknowns _ := [⟨.register 16, 64⟩, ⟨.memory 32, 8⟩, ⟨.register 24, 64⟩]
  resolve _ wanted := .ok (wanted.map fun _ => 1)

/-- A loop with an exit, with inputs. -/
def Project.lassoWithInputs : Project InputState where
  info := lasso.info
  functions := lasso.functions
  blocks := lasso.blocks
  graph := Graph.lasso
  engine := .ok {
    entry := fun a => (Graph.lasso.walker.entry a).map InputState.mk
    step := fun s => .ok ((Graph.lasso.walkStep s.place).map InputState.mk) }

/-- Two names of one architecture, each with a register to leave out. Both registers are left out,
and the paths stay. -/
theorem Project.dump_exclusions_lasso :
    let o : Options := { tracelet := 2 }
    let exclusions := .ofList [("X86_64", [(16 : UInt64)]), ("x86_64", [24])]
    ∃ a a', lassoWithInputs.Returns o (.ok a) ∧
      lassoWithInputs.Returns { o with registerExclusions := exclusions } (.ok a') ∧
      a.functions.map (·.paths.map (·.unknowns)) =
        [List.replicate 3 ["reg_16", "mem_20", "reg_24"], []] ∧
      a'.functions.map (·.paths.map (·.unknowns)) = [List.replicate 3 ["mem_20"], []] ∧
      List.Forall₂ FunctionRecord.SameWalks a.functions a'.functions ∧
      List.Forall₂ (fun r r' =>
          List.Forall₂ (fun q q' => q'.unknowns.Sublist q.unknowns) r.paths r'.paths)
        a.functions a'.functions := by
  intro o exclusions
  have hanswers : ∀ e, lassoWithInputs.engine = .ok e → ∀ s, e.Reachable s → Answers s :=
    fun e _ s _ wanted _ _ => ⟨_, rfl⟩
  have hterminates : lassoWithInputs.Terminates o := by
    intro e he f _ hmode
    cases hmode
  -- everything that is evaluated, at once: the names of architectures are put into lower case only
  -- once
  obtain ⟨hall, hunknowns, hfewer⟩ : (o.exclusionTable.offsetsFor "x86_64").toList.all
        ({ o with registerExclusions := exclusions }.exclusionTable.offsetsFor "x86_64").contains =
          true ∧
      (outcome (lassoWithInputs.dump o)).map (·.functions.map (·.paths.map (·.unknowns))) =
        .ok [List.replicate 3 ["reg_16", "mem_20", "reg_24"], []] ∧
      (outcome (lassoWithInputs.dump { o with registerExclusions := exclusions })).map
        (·.functions.map (·.paths.map (·.unknowns))) = .ok [List.replicate 3 ["mem_20"], []] := by
    decide +kernel
  have hmore : ∀ offset ∈ o.exclusionTable.offsetsFor "x86_64",
      offset ∈ { o with registerExclusions := exclusions }.exclusionTable.offsetsFor "x86_64" :=
    fun offset hoffset => List.all_eq_true.mp hall offset (Std.ExtTreeSet.mem_toList.mpr hoffset)
  rcases (dump_exclusions lassoWithInputs o exclusions (by decide) hanswers).2 hterminates with
    ⟨cause, h, -⟩ | ⟨a, a', h, h', -, -, hwalks, hsublists⟩
  · rw [h.2] at hunknowns
    cases hunknowns
  · rw [h.2] at hunknowns
    rw [h'.2] at hfewer
    exact ⟨a, a', h, h', Except.ok.inj hunknowns, Except.ok.inj hfewer, hwalks, hsublists hmore⟩

end SymbolicPaths
