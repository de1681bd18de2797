import SymbolicPaths.Batch
import SymbolicPaths.Proofs.ArtifactWriting

/-!
# Processing a binary, seen from its requests

Processing asks whether the artifact exists, and if not makes it (`run_processFile`). Apart from
what the loader asks for, everything is about two files, the artifact and the unfinished artifact
(`asksOnly_processFile`). Their locations are told apart by their names, and neither is what the
input leads to. Up to the write of the artifact files are only read, so what holds of processing is
a matter of the write (`safe_produce`, `steps_processFile_done`).

The run of a batch is one of the orders in which its workers can take turns
(`teamSteps_processAll`).
-/

namespace SymbolicPaths

open Script FileTree

/-! ### Names of artifacts -/

theorem Path.isNamed_artifact (p : Path) : p.artifact.IsNamed :=
  isNamed_append (by decide) (by decide)

theorem Path.unfinished_artifact (p : Path) :
    p.artifact.unfinished = p.append ".vex.json.gz.partial" := by
  rw [unfinished, artifact, append, append, append, String.append_assoc]
  rfl

/-- Whether the name of a location is the one of an unfinished artifact. -/
def Location.IsUnfinished (l : Location) : Prop :=
  ∃ name, l.getLast? = some name ∧ ".vex.json.gz.partial".toList <:+ name.toList

namespace FileTree

variable {t t' : FileTree} {l : Location} {p : Path}

theorem getLast?_of_locate {r : Path} (hr : r.IsNamed) (h : t.locate r = .ok l) :
    l.getLast? = some r.lastName := by
  obtain ⟨-, -, d, -, -, rfl⟩ := (locate_eq_ok hr).mp h
  exact List.getLast?_concat

theorem isUnfinished_of_locate (h : t.locate p.artifact.unfinished = .ok l) : l.IsUnfinished := by
  refine ⟨_, getLast?_of_locate p.artifact.isNamed_unfinished h, p.ending, ?_⟩
  rw [Path.toList_lastName, Path.unfinished, Path.ending_append (by decide), Path.artifact,
    Path.ending_append (by decide), List.append_assoc]
  rfl

theorem not_isUnfinished_of_locate (h : t.locate p.artifact = .ok l) : ¬ l.IsUnfinished := by
  rintro ⟨name, hname, before, hbefore⟩
  rw [getLast?_of_locate p.isNamed_artifact h] at hname
  obtain rfl := Option.some.inj hname
  rw [Path.toList_lastName, Path.artifact, Path.ending_append (by decide)] at hbefore
  -- the one name ends in `l` and the other in `z`
  have hlast := congrArg List.getLast? hbefore
  rw [List.getLast?_append_of_ne_nil _ (by decide),
    List.getLast?_append_of_ne_nil _ (by decide)] at hlast
  exact absurd hlast (by decide)

end FileTree

/-! ### The course of processing -/

variable {σ : Type} [SymbolicState σ] {z : Gzip.Compressor} {load : FileLoader σ} {o : Options}

/-- Makes the artifact of a binary that has none. -/
def produce (z : Gzip.Compressor) (load : FileLoader σ) (o : Options) (input : Path) :
    ExceptT ProcessingError Script Outcome := do
  let project ← (load input).adapt fun e => .dump (.binary e)
  let artifact ← (ExceptT.mk (Script.ofJournaled (project.dump o).run)).adapt .dump
  (artifact.writeTo z input.artifact).adapt .artifact
  Script.log .info s!"Wrote {input.artifact.text}"
  return .written input.artifact

theorem run_resume_ok (kind : FileKind) (p : Path) :
    (resume z load o p (.ok kind)).run =
      .note (.logged ⟨.debug, s!"Skipping {p.text}: {p.artifact.text} exists"⟩)
        (.done (.ok (.cached p.artifact))) :=
  rfl

theorem run_resume_error (fault : FileFault) (p : Path) :
    (resume z load o p (.error fault)).run = .note (.loaded p.text) (produce z load o p).run :=
  rfl

theorem run_processFile (z : Gzip.Compressor) (load : FileLoader σ) (o : Options) (p : Path) :
    (processFile z load o p).run =
      .ask (.status p.artifact) fun found => (resume z load o p found).run :=
  rfl

theorem FileTree.answer_status_ok {t : FileTree} {p : Path} {found : Location × FileNode}
    (h : t.find p = .ok found) : (t.answer (.status p)).1 = .ok found.2.kind := by
  change (t.find p).map _ = _
  rw [h]
  rfl

theorem FileTree.answer_status_error {t : FileTree} {p : Path} {fault : FileFault}
    (h : t.find p = .error fault) : (t.answer (.status p)).1 = .error fault := by
  change (t.find p).map _ = _
  rw [h]
  rfl

/-- What processing a binary asks for. -/
theorem asksOnly_processFile {P : FileRequest → Prop} (o : Options) (p : Path)
    (hstatus : P (.status p.artifact)) (hload : (load p).run.AsksOnly P)
    (hat : ∀ c, c.path? = some p.artifact.unfinished → P (.change c))
    (hmove : P (.change (.rename p.artifact.unfinished p.artifact))) :
    (processFile z load o p).run.AsksOnly P := by
  have hproduce : (produce z load o p).run.AsksOnly P := by
    refine .bindExcept hload.adapt fun project => ?_
    refine .bindExcept (AsksOnly.adapt (.ofJournaled _)) fun artifact => ?_
    refine .bindExcept (AsksOnly.adapt (artifact.asksOnly_writeTo z _ hat hmove)) fun _ => ?_
    trivial
  rw [run_processFile]
  refine ⟨hstatus, fun found => ?_⟩
  cases found with
  | ok kind => trivial
  | error fault => exact hproduce

/-! ### Up to the write -/

/-- Whether a request changes nothing. -/
def FileRequest.IsReading (r : FileRequest) : Prop :=
  ∀ c, r ≠ .change c

/-- A loader only reads files. -/
def FileLoader.OnlyReads (load : FileLoader σ) : Prop :=
  ∀ p, (load p).run.AsksOnly FileRequest.IsReading

section

variable {mayFail : FileChange → Prop} {p : Path} {t t' : FileTree} {acts : List Act}

theorem Script.Safe.of_reading {α : Type} {s : Script α} {pact : Pact FileTree}
    {I : FileTree → Prop} (hs : s.AsksOnly FileRequest.IsReading)
    (hrely : ∀ t t', I t → pact.rely t t' → I t') (ht : I t) :
    s.Safe (Answers mayFail) pact (fun _ => I) t := by
  refine .of_asksOnly hs hrely ?_ ht
  intro r answer t₁ t₂ hr h₁ hanswer
  obtain ⟨-, rfl⟩ := hanswer.eq_of_not_change hr
  exact ⟨pact.guarantee_refl _, h₁⟩

theorem Script.Steps.eq_of_reading {α : Type} {s s' : Script α}
    (h : Steps (Answers mayFail) s t acts s' t') (hs : s.AsksOnly FileRequest.IsReading) :
    t' = t := by
  refine (hs.steps (I := (· = t)) ?_ h rfl).1
  rintro r answer _ t₂ hr rfl hanswer
  exact (hanswer.eq_of_not_change hr).2

/-- What becomes of a binary whose artifact has been written, or could not be. -/
def outcomeOf (p : Path) : Except ArtifactError Unit → Except ProcessingError Outcome
  | .ok _ => .ok (.written p.artifact)
  | .error e => .error (.artifact e)

/-- Making an artifact is safe if writing it is: up to there, files are only read. -/
theorem safe_produce {pact : Pact FileTree} {I : FileTree → Prop}
    {post : Except ProcessingError Outcome → FileTree → Prop} (o : Options)
    (hload : load.OnlyReads) (hrely : ∀ t t', I t → pact.rely t t' → I t')
    (hpost : ∀ x t t', post x t → pact.rely t t' → post x t')
    (hstop : ∀ e t, I t → post (.error e) t)
    (hwrite : ∀ (a : Artifact) t, I t →
      (a.writeTo z p.artifact).run.Safe (Answers mayFail) pact (fun x => post (outcomeOf p x)) t)
    (ht : I t) : (produce z load o p).run.Safe (Answers mayFail) pact post t := by
  have hend (e : ProcessingError) (t₁ : FileTree) (h₁ : I t₁) :
      (Script.done (.error e : Except ProcessingError Outcome)).Safe (Answers mayFail) pact
        post t₁ :=
    fun t₂ hrely' => hpost _ _ _ (hstop e t₁ h₁) hrely'
  -- loading and dumping change nothing, so the invariant lasts up to the write
  have hloaded : ((load p).adapt fun e => ProcessingError.dump (.binary e)).run.Safe
      (Answers mayFail) pact (fun _ => I) t :=
    .of_reading (hload p).adapt hrely ht
  refine hloaded.bindExcept (fun project t₁ h₁ => ?_) hend
  have hdumped : ((ExceptT.mk (ofJournaled (project.dump o).run)).adapt
      ProcessingError.dump).run.Safe (Answers mayFail) pact (fun _ => I) t₁ :=
    .of_reading (AsksOnly.adapt (.ofJournaled _)) hrely h₁
  refine hdumped.bindExcept (fun artifact t₂ h₂ => ?_) hend
  have hwritten : ((artifact.writeTo z p.artifact).adapt ProcessingError.artifact).run.Safe
      (Answers mayFail) pact (fun x t => post (x.map fun _ => .written p.artifact) t) t₂ := by
    refine .adapt ((hwrite artifact t₂ h₂).mono (fun _ _ => id) (fun _ _ => id)
      fun x t₃ h₃ t₄ hrely' => ?_)
    cases x <;> exact hpost _ _ _ h₃ hrely'
  refine hwritten.bindExcept (fun _ t₃ h₃ => ?_) fun e t₃ h₃ => ?_
  · exact fun t₄ hrely' => hpost _ _ _ h₃ hrely'
  · exact fun t₄ hrely' => hpost _ _ _ h₃ hrely'

theorem steps_produce_done {x : Except ProcessingError Outcome} (hload : load.OnlyReads)
    (h : Steps (Answers mayFail) (produce z load o p).run t acts (.done x) t') :
    (∃ e, x = .error e ∧ t' = t) ∨
      ∃ (a : Artifact) (y : Except ArtifactError Unit) (acts₁ : List Act), acts₁ ⊆ acts ∧
        x = outcomeOf p y ∧
        Steps (Answers mayFail) (a.writeTo z p.artifact).run t acts₁ (.done y) t' := by
  obtain ⟨e, rfl, hload'⟩ | ⟨project, t₁, acts₁, rest₁, rfl, hload', h₁⟩ := h.of_bindExcept_done
  · exact .inl ⟨e, rfl, hload'.eq_of_reading (hload p).adapt⟩
  obtain rfl := hload'.eq_of_reading (hload p).adapt
  obtain ⟨e, rfl, hdump⟩ | ⟨a, t₂, acts₂, rest₂, rfl, hdump, h₂⟩ := h₁.of_bindExcept_done
  · exact .inl ⟨e, rfl, hdump.eq_of_reading (AsksOnly.adapt (.ofJournaled _))⟩
  obtain rfl := hdump.eq_of_reading (AsksOnly.adapt (.ofJournaled _))
  refine .inr ⟨a, ?_⟩
  obtain ⟨e, rfl, hwritten⟩ | ⟨_, t₃, acts₃, rest₃, rfl, hwritten, h₃⟩ := h₂.of_bindExcept_done
  · obtain ⟨y, hy, hwrite⟩ := hwritten.of_adapt_done
    refine ⟨y, rest₂, fun act hact => by simp [hact], ?_, hwrite⟩
    cases y with
    | ok _ => cases hy
    | error e' =>
      cases hy
      rfl
  · obtain ⟨y, hy, hwrite⟩ := hwritten.of_adapt_done
    -- what is left is to log that the artifact was written
    obtain ⟨-, hx, -⟩ | ⟨rest, rfl, hdone⟩ := h₃.of_note
    · cases hx
    obtain ⟨-, hx, rfl⟩ := hdone.of_done
    refine ⟨y, acts₃, fun act hact => by simp [hact], ?_, hwrite⟩
    cases y with
    | ok _ => exact Script.done.inj hx
    | error e' => cases hy

/-- **What a call can have done that has come to its end.** It found the artifact, or failed before
the write, or is due to what became of the write. -/
theorem steps_processFile_done {x : Except ProcessingError Outcome} (hload : load.OnlyReads)
    (h : Steps (Answers mayFail) (processFile z load o p).run t acts (.done x) t') :
    (x = .ok (.cached p.artifact) ∧ t' = t ∧ ∃ found, t.find p.artifact = .ok found) ∨
    ∃ fault, t.find p.artifact = .error fault ∧
      ((∃ e, x = .error e ∧ t' = t) ∨
        ∃ (a : Artifact) (y : Except ArtifactError Unit) (acts₁ : List Act), acts₁ ⊆ acts ∧
          x = outcomeOf p y ∧
          Steps (Answers mayFail) (a.writeTo z p.artifact).run t acts₁ (.done y) t') := by
  rw [run_processFile] at h
  obtain ⟨-, hx, -⟩ | ⟨answer, t₁, rest, rfl, hanswer, hrest⟩ := h.of_ask
  · cases hx
  obtain ⟨rfl, rfl⟩ := hanswer.eq_of_not_change (by simp)
  cases hfind : t₁.find p.artifact with
  | ok found =>
    rw [answer_status_ok hfind, run_resume_ok] at hrest
    obtain ⟨-, hx, -⟩ | ⟨rest', rfl, hdone⟩ := hrest.of_note
    · cases hx
    obtain ⟨-, hx, rfl⟩ := hdone.of_done
    exact .inl ⟨Script.done.inj hx, rfl, found, rfl⟩
  | error fault =>
    rw [answer_status_error hfind, run_resume_error] at hrest
    obtain ⟨-, hx, -⟩ | ⟨rest', rfl, hproduce⟩ := hrest.of_note
    · cases hx
    refine .inr ⟨fault, rfl, ?_⟩
    obtain hstop | ⟨a, y, acts₁, hacts, hx, hwrite⟩ := steps_produce_done hload hproduce
    · exact .inl hstop
    · exact .inr ⟨a, y, acts₁, fun act hact => by simp [hacts hact], hx, hwrite⟩

end

/-! ### The run of a batch -/

/-- Logs which inputs failed. -/
def logFailures (results : List (Path × Except ProcessingError Outcome)) : Script Unit :=
  results.forM fun (input, result) => logFailure input result

theorem processAll_eq (z : Gzip.Compressor) (load : FileLoader σ) (o : Options)
    (inputs : List Path) :
    processAll z load o inputs = (do
      let results ← processEach z load o (Path.distinct inputs)
      logFailures results
      return .ofResults results) :=
  rfl

theorem asksOnly_logFailures {P : FileRequest → Prop}
    (results : List (Path × Except ProcessingError Outcome)) :
    (logFailures results).AsksOnly P := by
  induction results with
  | nil => trivial
  | cons x rest ih =>
    obtain ⟨p, result⟩ := x
    cases result with
    | ok _ => exact ih
    | error _ => exact ih

theorem run_logFailures (results : List (Path × Except ProcessingError Outcome)) (t : FileTree) :
    ((logFailures results).run t).value = ((), t) := by
  have hsafe : (logFailures results).Safe (Answers fun _ => False) .alone
      (fun _ t' => t' = t) t := by
    refine .of_reading (asksOnly_logFailures results) ?_ rfl
    rintro t₁ _ h rfl
    exact h
  exact Prod.ext rfl hsafe.post_run

/-- The workers of a batch, one for each input. -/
def workers (z : Gzip.Compressor) (load : FileLoader σ) (o : Options) (inputs : List Path) :
    List (Script (Except ProcessingError Outcome)) :=
  inputs.map fun p => (processFile z load o p).run

/-- Beginning with the last input while the others are processed is one of the orders in which
workers can take turns. -/
theorem teamSteps_processAtOnce (mayFail : FileChange → Prop) (z : Gzip.Compressor)
    (load : FileLoader σ) (o : Options) (inputs : List Path) (t : FileTree) :
    ∃ results t', TeamSteps mayFail (workers z load o inputs) t (results.map .done) t' ∧
      ((processAtOnce z load o inputs).run t).value = (inputs.zip results, t') := by
  obtain rfl | ⟨front, last, rfl⟩ := inputs.eq_nil_or_concat
  · exact ⟨[], t, .refl, rfl⟩
  let found := (t.answer (.status last.artifact)).1
  have hlook : TeamStep mayFail [(processFile z load o last).run] t
      [(resume z load o last found).run] t := .first (.ask (.given _)) []
  obtain ⟨results, t₁, hfront, hvalue⟩ : ∃ results t₁, TeamSteps mayFail _ t _ t₁ ∧ _ :=
    teamSteps_mapM (fun p => (processFile z load o p).run) front t
  let result := ((resume z load o last found).run.run t₁).value
  obtain ⟨acts, hacts⟩ : ∃ acts, Steps (Answers mayFail) (resume z load o last found).run t₁ acts
    (.done result.1) result.2 := steps_run _ t₁
  refine ⟨results ++ [result.1], result.2, ?_, ?_⟩
  · rw [List.concat_eq_append, workers, List.map_append, List.map_append]
    exact ((TeamSteps.prepend _ (.single hlook)).trans (hfront.append _)).trans
      (TeamSteps.prepend _ (.first hacts []))
  · have hlength : front.length = results.length := by simpa using hfront.length_eq.symm
    rw [List.concat_eq_append, List.zip_append hlength]
    simp only [processAtOnce, List.getLast?_concat, List.dropLast_concat, run_bind,
      Journaled.value_bind]
    have hfound : ((status last.artifact).run t).value = (found, t) := rfl
    rw [hfound, processInOrder, hvalue]
    rfl

theorem teamSteps_processEach (mayFail : FileChange → Prop) (z : Gzip.Compressor)
    (load : FileLoader σ) (o : Options) (inputs : List Path) (t : FileTree) :
    ∃ results t', TeamSteps mayFail (workers z load o inputs) t (results.map .done) t' ∧
      ((processEach z load o inputs).run t).value = (inputs.zip results, t') := by
  unfold processEach
  split
  · exact teamSteps_mapM _ inputs t
  · exact teamSteps_processAtOnce mayFail z load o inputs t

/-- **The run of a batch is one of the orders in which its workers can take turns.** -/
theorem teamSteps_processAll (mayFail : FileChange → Prop) (z : Gzip.Compressor)
    (load : FileLoader σ) (o : Options) (inputs : List Path) (t : FileTree) :
    ∃ results t', TeamSteps mayFail (workers z load o (Path.distinct inputs)) t
        (results.map .done) t' ∧
      ((processAll z load o inputs).run t).value =
        (.ofResults ((Path.distinct inputs).zip results), t') := by
  obtain ⟨results, t', hsteps, hvalue⟩ :=
    teamSteps_processEach mayFail z load o (Path.distinct inputs) t
  refine ⟨results, t', hsteps, ?_⟩
  rw [processAll_eq, run_bind, Journaled.value_bind, hvalue, run_bind, Journaled.value_bind,
    run_logFailures]
  rfl

end SymbolicPaths
