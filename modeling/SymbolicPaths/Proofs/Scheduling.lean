import SymbolicPaths.Gzip.Stored
import SymbolicPaths.Proofs.BatchLaws
import SymbolicPaths.Proofs.DumpLaws
import SymbolicPaths.Proofs.TreeLocality

/-!
# Batches do not depend on scheduling

The workers of a batch take turns on one tree, a request at a time. Each of them looks at what its
input leads to, at its artifact and at its unfinished artifact, and changes nothing but the latter
two. If no input leads to what another one owns (`Apart`), a worker cannot tell whether it is alone:
it comes to the result, and leaves the two files, that it would come to on its own
(`safe_processFile_isolated`). A tree in which each worker has left its files, and nobody else any,
is unique (`Merged.unique`), so every schedule ends in the same results and the same files
(`merged_of_teamSteps`).

From there on, an input that has an artifact is found to have one and every other fails as before,
so a second batch changes nothing (`processAlone_again`).
-/

namespace SymbolicPaths

open Script FileTree

namespace FileTree

variable {t₀ t t' : FileTree} {l : Location} {p q : Path}

/-! ### Inputs that are apart -/

/-- The locations at which processing an input may change files: those of the artifact and of the
unfinished artifact. -/
def Owns (t : FileTree) (p : Path) (l : Location) : Prop :=
  t.locate p.artifact = .ok l ∨ t.locate p.artifact.unfinished = .ok l

/-- Two inputs lead to different locations, and neither of them to or below one that the other owns.
The latter is also asked of an input that leads nowhere, at the location where it breaks off. The
empty path counts as leading to where relative paths start. -/
structure Apart (t : FileTree) (p q : Path) : Prop where
  different : ∀ l, t.walk (t.start p) p.steps = .ok l → t.walk (t.start q) q.steps ≠ .ok l
  left : ∀ l, t.Owns q l → ¬ l <+: t.goal p
  right : ∀ l, t.Owns p l → ¬ l <+: t.goal q

/-- The locations that an input owns. -/
def owned (t : FileTree) (p : Path) : List Location :=
  [t.locate p.artifact, t.locate p.artifact.unfinished].filterMap Except.toOption

theorem mem_toOption {x : Except FileFault Location} : l ∈ x.toOption ↔ x = .ok l := by
  cases x <;> simp [Except.toOption]

theorem mem_owned : l ∈ t.owned p ↔ t.Owns p l := by
  simp [owned, Owns, ← Option.mem_def, mem_toOption, eq_comm]

instance : Decidable (Apart t p q) :=
  decidable_of_iff
    ((∀ l ∈ (t.walk (t.start p) p.steps).toOption, t.walk (t.start q) q.steps ≠ .ok l) ∧
      (∀ l ∈ t.owned q, ¬ l <+: t.goal p) ∧ ∀ l ∈ t.owned p, ¬ l <+: t.goal q)
    ⟨fun h => ⟨fun l hl => h.1 l (mem_toOption.mpr hl), fun l hl => h.2.1 l (mem_owned.mpr hl),
        fun l hl => h.2.2 l (mem_owned.mpr hl)⟩,
      fun h => ⟨fun l hl => h.different l (mem_toOption.mp hl),
        fun l hl => h.left l (mem_owned.mp hl), fun l hl => h.right l (mem_owned.mp hl)⟩⟩

theorem Apart.symm (h : Apart t p q) : Apart t q p :=
  ⟨fun l hq hp => h.different l hp hq, h.right, h.left⟩

theorem Owns.goal_ne (h : t.Owns p l) : t.goal p ≠ l := by
  rcases h with h | h
  · exact goal_ne_of_locate_append (by decide) (by decide) h
  · rw [Path.unfinished_artifact] at h
    exact goal_ne_of_locate_append (by decide) (by decide) h

/-- Inputs that are apart own different locations. -/
theorem Apart.not_owns (h : Apart t p q) (hp : t.Owns p l) : ¬ t.Owns q l := by
  intro hq
  rcases hp with hp | hp <;> rcases hq with hq | hq
  · obtain ⟨l', hl', hl''⟩ := walk_of_locate_append (by decide) (by decide) hp hq
    exact h.different l' hl' hl''
  -- an artifact and an unfinished artifact have different names
  · exact not_isUnfinished_of_locate hp (isUnfinished_of_locate hq)
  · exact not_isUnfinished_of_locate hq (isUnfinished_of_locate hp)
  · rw [Path.unfinished_artifact] at hp hq
    obtain ⟨l', hl', hl''⟩ := walk_of_locate_append (by decide) (by decide) hp hq
    exact h.different l' hl' hl''

theorem Apart.goal_ne (h : Apart t p q) (hp : t.Owns p l) : l ≠ t.goal q := by
  rintro rfl
  exact h.right _ hp List.prefix_rfl

/-- What an input leads to is as it was. -/
abbrev Undisturbed (t₀ : FileTree) (p : Path) (t : FileTree) : Prop :=
  ChangesOnly (· ≠ t₀.goal p) t₀ t

namespace Undisturbed

theorem walk_goal (h : Undisturbed t₀ p t) :
    t.walk (t.start p) p.steps = t₀.walk (t₀.start p) p.steps ∧ t.goal p = t₀.goal p :=
  h.walk_goal_eq (by simp)

theorem find (h : Undisturbed t₀ p t) : t.find p = t₀.find p :=
  h.find_eq (by simp)

theorem locate_artifact (h : Undisturbed t₀ p t) : t.locate p.artifact = t₀.locate p.artifact :=
  h.locate_append_eq (by simp) (by decide) (by decide)

theorem locate_unfinished (h : Undisturbed t₀ p t) :
    t.locate p.artifact.unfinished = t₀.locate p.artifact.unfinished := by
  rw [Path.unfinished_artifact]
  exact h.locate_append_eq (by simp) (by decide) (by decide)

theorem owns_iff (h : Undisturbed t₀ p t) : t.Owns p l ↔ t₀.Owns p l := by
  rw [Owns, Owns, h.locate_artifact, h.locate_unfinished]

end Undisturbed

/-- Inputs stay apart while what they lead to is as it was. -/
theorem Apart.of_undisturbed (h : Apart t₀ p q) (hp : Undisturbed t₀ p t)
    (hq : Undisturbed t₀ q t) :
    Apart t p q := by
  refine ⟨fun l => ?_, fun l hl => ?_, fun l hl => ?_⟩
  · rw [hp.walk_goal.1, hq.walk_goal.1]
    exact h.different l
  · rw [hp.walk_goal.2]
    exact h.left l (hq.owns_iff.mp hl)
  · rw [hq.walk_goal.2]
    exact h.right l (hp.owns_iff.mp hl)

end FileTree

/-! ### A worker among others -/

/-- The pact of a worker: others leave alone what its input leads to and what it owns, and it
changes nothing but what it owns. -/
def isolated (t₀ : FileTree) (p : Path) : Pact FileTree where
  rely := ChangesOnly fun l => l ≠ t₀.goal p ∧ ¬ t₀.Owns p l
  guarantee := ChangesOnly (t₀.Owns p)
  rely_refl t := .refl _ t
  rely_trans h h' := h.trans h'
  guarantee_refl t := .refl _ t

/-- The requests of a worker. -/
inductive Asked (p : Path) : FileRequest → Prop
  | status : Asked p (.status p.artifact)
  | load {r : FileRequest} (h : r.IsAbout p) : Asked p r
  | write {c : FileChange} (h : c.path? = some p.artifact.unfinished) : Asked p (.change c)
  | move : Asked p (.change (.rename p.artifact.unfinished p.artifact))

section

variable {t₀ t t' : FileTree} {p q : Path} {r : FileRequest}

theorem isolated_fits (h : Apart t₀ p q) : (isolated t₀ p).Fits (isolated t₀ q) := by
  have hone {p q : Path} (h : Apart t₀ p q) (t t' : FileTree)
      (hchange : (isolated t₀ p).guarantee t t') : (isolated t₀ q).rely t t' :=
    ChangesOnly.mono hchange fun l hl => ⟨h.goal_ne hl, h.not_owns hl⟩
  exact ⟨hone h, hone h.symm⟩

theorem FileTree.Undisturbed.of_rely (h : Undisturbed t₀ p t) (hrely : (isolated t₀ p).rely t t') :
    Undisturbed t₀ p t' :=
  h.trans (ChangesOnly.mono hrely fun _ hl => hl.1)

theorem FileTree.Undisturbed.of_guarantee (h : Undisturbed t₀ p t)
    (hchange : (isolated t₀ p).guarantee t t') : Undisturbed t₀ p t' :=
  h.trans (ChangesOnly.mono hchange fun _ hl => hl.goal_ne.symm)

/-- Others do not change whether there is an artifact. -/
theorem find_artifact_of_rely (h : Undisturbed t₀ p t) (hrely : (isolated t₀ p).rely t t') :
    t'.find p.artifact = t.find p.artifact := by
  refine find_congr_node ?_ fun l hl => ChangesOnly.node?_eq hrely fun hnot => hnot.2 (.inl ?_)
  · rw [(h.of_rely hrely).locate_artifact, h.locate_artifact]
  · rw [← h.locate_artifact, hl]

/-- A worker changes only what it owns. -/
theorem Asked.guarantee (h : Asked p r) (ht : Undisturbed t₀ p t) :
    (isolated t₀ p).guarantee t (t.answer r).2 := by
  have happly {c : FileChange} (hc : ∀ t', t.apply c = .ok t' → (isolated t₀ p).guarantee t t') :
      (isolated t₀ p).guarantee t (t.answer (.change c)).2 := by
    cases h : t.apply c with
    | ok t' =>
      rw [answer_change_ok h]
      exact hc t' h
    | error fault =>
      rw [answer_change_error h]
      exact .refl _ t
  cases h with
  | status => exact .refl _ t
  | load h =>
    rw [(h.answer_eq (Eq.refl (t.find p))).2.1]
    exact .refl _ t
  | write hc =>
    refine happly fun t' h => (apply_changesOnly p.artifact.isNamed_unfinished hc h).mono
      fun l hl => .inr ?_
    rw [← ht.locate_unfinished, hl]
  | move =>
    refine happly fun t' h => (rename_changesOnly h).mono fun l hl => ?_
    rw [place_eq_some p.artifact.isNamed_unfinished, place_eq_some p.isNamed_artifact] at hl
    exact ht.owns_iff.mp hl.symm

/-- A worker cannot tell whether others have been at work. -/
theorem Asked.answer_eq (h : Asked p r) (ht : Undisturbed t₀ p t)
    (hrely : (isolated t₀ p).rely t t') :
    (t'.answer r).1 = (t.answer r).1 ∧ (isolated t₀ p).rely (t.answer r).2 (t'.answer r).2 := by
  have ht' := ht.of_rely hrely
  have hunfinished : t'.locate p.artifact.unfinished = t.locate p.artifact.unfinished := by
    rw [ht'.locate_unfinished, ht.locate_unfinished]
  cases h with
  | status =>
    have hfind := find_artifact_of_rely ht hrely
    obtain ⟨hanswer, htree, htree'⟩ := FileRequest.IsAbout.answer_eq (.inl rfl) hfind
    rw [htree, htree']
    exact ⟨hanswer, hrely⟩
  | load h =>
    obtain ⟨hanswer, htree, htree'⟩ := h.answer_eq (ht'.find.trans ht.find.symm)
    rw [htree, htree']
    exact ⟨hanswer, hrely⟩
  | write hc =>
    refine Alike.answer hrely (apply_alike hrely p.artifact.isNamed_unfinished hc hunfinished ?_)
    exact fun l hl hnot => hnot.2 (ht.owns_iff.mp (.inr hl))
  | move =>
    have hartifact : t'.locate p.artifact = t.locate p.artifact := by
      rw [ht'.locate_artifact, ht.locate_artifact]
    refine Alike.answer hrely (rename_alike hrely ?_ ?_ fun l hl hnot => hnot.2 (ht.owns_iff.mp ?_))
    · rw [place_named p.artifact.isNamed_unfinished, place_named p.artifact.isNamed_unfinished,
        hunfinished]
    · rw [place_named p.isNamed_artifact, place_named p.isNamed_artifact, hartifact]
    · rw [place_eq_some p.artifact.isNamed_unfinished, place_eq_some p.isNamed_artifact] at hl
      exact hl.symm

end

/-- A loader only looks at what the path that it is given leads to. -/
def FileLoader.OnlyLooksAt {σ : Type} (load : FileLoader σ) : Prop :=
  ∀ p, (load p).run.AsksOnly (FileRequest.IsAbout p)

theorem FileLoader.OnlyLooksAt.onlyReads {σ : Type} {load : FileLoader σ}
    (hload : load.OnlyLooksAt) : load.OnlyReads := by
  refine fun p => (hload p).mono ?_
  rintro r (rfl | rfl | rfl) c <;> simp

section

variable {σ : Type} [SymbolicState σ] {z : Gzip.Compressor} {load : FileLoader σ} {o : Options}
  {t₀ t t' : FileTree} {p : Path}

/-- What becomes of an input that is processed alone, and the tree afterwards. -/
def processAlone (z : Gzip.Compressor) (load : FileLoader σ) (o : Options) (t : FileTree)
    (p : Path) : Except ProcessingError Outcome × FileTree :=
  ((processFile z load o p).run.run t).value

/-- **A worker comes to the result that it would come to alone**, whatever others do elsewhere. -/
theorem safe_processFile_isolated (z : Gzip.Compressor) (hload : load.OnlyLooksAt) (o : Options)
    (ht : Undisturbed t₀ p t) :
    (processFile z load o p).run.Safe (Answers fun _ => False) (isolated t₀ p)
      (fun x t' => x = (processAlone z load o t p).1 ∧
        (isolated t₀ p).rely (processAlone z load o t p).2 t') t := by
  have hasked : (processFile z load o p).run.AsksOnly (Asked p) :=
    asksOnly_processFile o p .status ((hload p).mono fun _ => .load) (fun _ => .write) .move
  refine .of_local hasked (fun _ _ h hrely => h.of_rely hrely) (fun r t₁ hr h => ?_)
    (fun r t₁ t₂ hr h hrely => hr.answer_eq h hrely) ht
  exact ⟨hr.guarantee h, h.of_guarantee (hr.guarantee h)⟩

/-! ### All workers -/

variable {inputs : List Path} {t₁ t₂ : FileTree}

/-- `t'` is `t` with the files that each input leaves when it is processed alone. -/
structure Merged (z : Gzip.Compressor) (load : FileLoader σ) (o : Options) (inputs : List Path)
    (t t' : FileTree) : Prop where
  frame : ChangesOnly (fun l => ∃ p ∈ inputs, t.Owns p l) t t'
  own : ∀ p ∈ inputs, (isolated t p).rely (processAlone z load o t p).2 t'

theorem Merged.unique (h₁ : Merged z load o inputs t t₁) (h₂ : Merged z load o inputs t t₂) :
    t₁ = t₂ := by
  have hnodes : t₁.nodes = t₂.nodes := by
    apply Std.ExtTreeMap.ext_getElem?
    intro l
    -- what stands at a location is due to the input that owns it, or has been there before
    by_cases hl : ∃ p ∈ inputs, t.Owns p l
    · obtain ⟨p, hp, hown⟩ := hl
      rw [(h₁.own p hp).others l fun hnot => hnot.2 hown,
        (h₂.own p hp).others l fun hnot => hnot.2 hown]
    · rw [h₁.frame.others l hl, h₂.frame.others l hl]
  have hcurrent : t₁.current = t₂.current := h₁.frame.current.trans h₂.frame.current.symm
  cases t₁
  cases t₂
  subst hnodes hcurrent
  rfl

theorem Merged.undisturbed (hapart : inputs.Pairwise (Apart t)) (h : Merged z load o inputs t t')
    (hp : p ∈ inputs) : Undisturbed t p t' := by
  refine h.frame.mono ?_
  rintro l ⟨q, hq, hown⟩
  by_cases heq : q = p
  · subst heq
    exact hown.goal_ne.symm
  · have : Std.Symm (Apart t) := ⟨fun _ _ => Apart.symm⟩
    exact (hapart.forall hq hp heq).goal_ne hown

/-- **Every schedule ends in the results and in the files that the inputs lead to alone.** -/
theorem merged_of_teamSteps (hload : load.OnlyLooksAt) (hapart : inputs.Pairwise (Apart t))
    {results : List (Except ProcessingError Outcome)}
    (h : TeamSteps (fun _ => False) (inputs.map fun p => (processFile z load o p).run) t
      (results.map .done) t') :
    results = inputs.map (fun p => (processAlone z load o t p).1) ∧
    Merged z load o inputs t t' := by
  have hstart : TeamSafe (fun _ => False) (isolated t)
      (fun p x t' => x = (processAlone z load o t p).1 ∧
        (isolated t p).rely (processAlone z load o t p).2 t')
      inputs (inputs.map fun p => (processFile z load o p).run) t :=
    List.forall₂_map_right_iff.mpr (List.forall₂_same.mpr fun p _ =>
      safe_processFile_isolated z hload o (.refl _ t))
  obtain ⟨hend, hpath⟩ := hstart.steps (hapart.imp isolated_fits) h
  -- at the end, what holds of each worker is what would hold if it were alone
  have hposts := hend.post_of_done
  have hresults : results = inputs.map fun p => (processAlone z load o t p).1 := by
    rw [← List.forall₂_eq_eq_eq, List.forall₂_map_right_iff]
    exact (hposts.imp fun _ _ hpost => hpost.1).flip
  subst hresults
  refine ⟨rfl, ?_, fun p hp => ?_⟩
  · -- each step changes what one of the workers owns
    clear hposts hend hstart h
    induction hpath with
    | refl => exact .refl _ t
    | tail _ hstep ih =>
      obtain ⟨p, hp, hchange⟩ := hstep
      exact ih.trans (ChangesOnly.mono hchange fun l hl => ⟨p, hp, hl⟩)
  · rw [List.forall₂_map_right_iff, List.forall₂_same] at hposts
    exact (hposts p hp).2

/-! ### Processing again -/

theorem processAlone_of_found {found : Location × FileNode} (h : t.find p.artifact = .ok found) :
    processAlone z load o t p = (.ok (.cached p.artifact), t) := by
  rw [processAlone, run_processFile, run_ask, answer_status_ok h]
  rfl

/-- An input that is processed alone has an artifact afterwards, or it fails and nothing changes. -/
theorem processAlone_cases (hload : load.OnlyLooksAt) (o : Options) (t : FileTree) (p : Path) :
    (∃ x found, (processAlone z load o t p).1 = .ok x ∧
      (processAlone z load o t p).2.find p.artifact = .ok found) ∨
    ∃ e, processAlone z load o t p = (.error e, t) := by
  obtain ⟨acts, hacts⟩ : ∃ acts, Steps (Answers fun _ => False) (processFile z load o p).run t acts
    (.done (processAlone z load o t p).1) (processAlone z load o t p).2 := steps_run _ t
  obtain ⟨hx, htree, found, hfind⟩ | ⟨fault, hfind, hrest⟩ :=
    steps_processFile_done hload.onlyReads hacts
  · exact .inl ⟨_, found, hx, by rw [htree, hfind]⟩
  obtain ⟨e, hx, htree⟩ | ⟨a, y, acts₁, -, hx, hwrite⟩ := hrest
  · exact .inr ⟨e, Prod.ext hx htree⟩
  cases y with
  | ok _ =>
    obtain ⟨l, -, hfound⟩ := Artifact.find_of_steps_writeTo hwrite
    exact .inl ⟨_, _, hx, hfound⟩
  | error e =>
    -- nothing stands where the artifact goes, so the unfinished one could not be created
    obtain ⟨htree, -⟩ :=
      (a.safe_writeTo_never z p.isNamed_artifact hfind).post_of_steps hwrite e rfl
    exact .inr ⟨_, Prod.ext hx htree⟩

/-- After a batch, an input that has an artifact is found to have one, and every other fails as
before. -/
theorem processAlone_again (hload : load.OnlyLooksAt) (hapart : inputs.Pairwise (Apart t))
    (h : Merged z load o inputs t t') (hp : p ∈ inputs) :
    processAlone z load o t' p =
      ((processAlone z load o t p).1.map fun _ => .cached p.artifact, t') := by
  have hown := h.own p hp
  have ht' := h.undisturbed hapart hp
  obtain ⟨x, found, hx, hfound⟩ | ⟨e, he⟩ := processAlone_cases hload o t p
  · -- the artifact that was left is still there
    have halone : Undisturbed t p (processAlone z load o t p).2 :=
      ht'.trans (ChangesOnly.mono hown.symm fun _ hl => hl.1)
    rw [← find_artifact_of_rely halone hown] at hfound
    rw [processAlone_of_found hfound, hx]
    rfl
  · rw [he] at hown
    -- what fails does not depend on what the others have done
    have hsafe := (safe_processFile_isolated z hload o (.refl _ t)).stable hown
    have hresult : (processAlone z load o t' p).1 = .error e := by
      have hsame := hsafe.post_run.1
      rw [he] at hsame
      exact hsame
    obtain ⟨y, _, hy, -⟩ | ⟨e', he'⟩ := processAlone_cases hload o t' p
    · rw [hresult] at hy
      cases hy
    · rw [he'] at hresult
      obtain rfl := Except.error.inj hresult
      rw [he', he]
      rfl

/-! ### Reports -/

namespace BatchReport

/-- The entry of an input among the artifacts that were written. -/
def writtenEntry : Except ProcessingError Outcome → Option Path
  | .ok (.written path) => some path
  | _ => none

/-- The entry of an input among the artifacts that were there before. -/
def cachedEntry : Except ProcessingError Outcome → Option Path
  | .ok (.cached path) => some path
  | _ => none

/-- The entry of an input among those that failed. -/
def failedEntry (input : Path) : Except ProcessingError Outcome → Option (Path × String)
  | .ok _ => none
  | .error e => some (input, e.message)

variable (inputs : List Path) (f : Path → Except ProcessingError Outcome)

theorem foldl_add (r : BatchReport) :
    inputs.foldl (fun r p => r.add p (f p)) r =
      ⟨r.written ++ inputs.filterMap fun p => writtenEntry (f p),
        r.cached ++ inputs.filterMap fun p => cachedEntry (f p),
        r.failed ++ inputs.filterMap fun p => failedEntry p (f p)⟩ := by
  induction inputs generalizing r with
  | nil => simp
  | cons p rest ih =>
    rw [List.foldl_cons, ih]
    rcases h : f p with e | ⟨path | path⟩
    all_goals simp [h, add, writtenEntry, cachedEntry, failedEntry]

/-- A report lists its entries in the order of the inputs. -/
theorem ofResults_map :
    ofResults (inputs.map fun p => (p, f p)) =
      ⟨inputs.filterMap fun p => writtenEntry (f p), inputs.filterMap fun p => cachedEntry (f p),
        inputs.filterMap fun p => failedEntry p (f p)⟩ := by
  rw [ofResults, List.foldl_map]
  exact foldl_add inputs f {}

/-- Each input makes exactly one entry. -/
theorem total_ofResults_map : (ofResults (inputs.map fun p => (p, f p))).total = inputs.length := by
  rw [ofResults_map, total]
  induction inputs with
  | nil => rfl
  | cons p rest ih =>
    rcases h : f p with e | ⟨path | path⟩
    all_goals
      simp [h, writtenEntry, cachedEntry, failedEntry] at ih ⊢
      omega

/-- The report when every input that has an artifact is found to have one. -/
theorem ofResults_cached :
    ofResults (inputs.map fun p => (p, (f p).map fun _ => .cached p.artifact)) =
      ⟨[], (inputs.filter fun p => (f p).isOk).map Path.artifact,
        inputs.filterMap fun p => failedEntry p (f p)⟩ := by
  have hwritten : ∀ p, writtenEntry ((f p).map fun _ => .cached p.artifact) = none := by
    intro p
    cases f p <;> rfl
  have hcached : ∀ p, cachedEntry ((f p).map fun _ => .cached p.artifact) =
      if (f p).isOk then some p.artifact else none := by
    intro p
    cases f p <;> rfl
  have hfailed : ∀ p, failedEntry p ((f p).map fun _ => .cached p.artifact) =
      failedEntry p (f p) := by
    intro p
    cases f p <;> rfl
  rw [ofResults_map inputs fun p => (f p).map fun _ => .cached p.artifact]
  simp only [hwritten, hcached, hfailed, List.filterMap_none]
  rw [← List.filterMap_eq_map, List.filterMap_filter]
  rfl

end BatchReport

/-! ### Batches -/

/-- However a batch is scheduled, it comes to this end: a report on the results in the order of the
inputs, and a tree. -/
structure BatchSettles (z : Gzip.Compressor) (load : FileLoader σ) (o : Options)
    (inputs : List Path) (t : FileTree) (report : BatchReport) (t' : FileTree) : Prop where
  /-- This is what the run of the batch comes to. -/
  processed : ((processAll z load o inputs).run t).value = (report, t')
  /-- Workers that take turns come to no other end. -/
  only : ∀ (results : List (Except ProcessingError Outcome)) (t₁ : FileTree),
    TeamSteps (fun _ => False) (workers z load o (Path.distinct inputs)) t (results.map .done) t₁ →
      .ofResults ((Path.distinct inputs).zip results) = report ∧ t₁ = t'
  /-- Workers that have begun to take turns can carry on to this end. -/
  reached : ∀ (team : List (Script (Except ProcessingError Outcome))) (t₁ : FileTree),
    TeamSteps (fun _ => False) (workers z load o (Path.distinct inputs)) t team t₁ →
      ∃ results : List (Except ProcessingError Outcome),
        TeamSteps (fun _ => False) team t₁ (results.map .done) t'

theorem exists_merged (z : Gzip.Compressor) (hload : load.OnlyLooksAt) (o : Options)
    (hapart : (Path.distinct inputs).Pairwise (Apart t)) :
    ∃ t', Merged z load o (Path.distinct inputs) t t' := by
  obtain ⟨results, t', hsteps, -⟩ := teamSteps_processAll (fun _ => False) z load o inputs t
  exact ⟨t', (merged_of_teamSteps hload hapart hsteps).2⟩

theorem Merged.batchSettles (hload : load.OnlyLooksAt)
    (hapart : (Path.distinct inputs).Pairwise (Apart t))
    (h : Merged z load o (Path.distinct inputs) t t') :
    BatchSettles z load o inputs t
      (.ofResults ((Path.distinct inputs).map fun p => (p, (processAlone z load o t p).1))) t' := by
  have honly (results : List (Except ProcessingError Outcome)) (t₁ : FileTree)
      (hsteps : TeamSteps (fun _ => False) (workers z load o (Path.distinct inputs))
        t (results.map .done) t₁) :
      (Path.distinct inputs).zip results =
        (Path.distinct inputs).map (fun p => (p, (processAlone z load o t p).1)) ∧ t₁ = t' := by
    obtain ⟨rfl, hmerged⟩ := merged_of_teamSteps hload hapart hsteps
    exact ⟨List.map_prod_left_eq_zip.symm, hmerged.unique h⟩
  constructor
  case processed =>
    obtain ⟨results, t₁, hsteps, hvalue⟩ := teamSteps_processAll (fun _ => False) z load o inputs t
    obtain ⟨hzip, rfl⟩ := honly results t₁ hsteps
    rw [hvalue, hzip]
  case only =>
    intro results t₁ hsteps
    obtain ⟨hzip, htree⟩ := honly results t₁ hsteps
    rw [hzip]
    exact ⟨rfl, htree⟩
  case reached =>
    intro team t₁ hbegun
    -- whatever remains to be done can be done in order
    obtain ⟨results, t₂, hrest, -⟩ :
        ∃ results t₂, TeamSteps (fun _ => False) (team.map id) t₁ _ t₂ ∧ _ :=
      teamSteps_mapM id team t₁
    rw [List.map_id] at hrest
    obtain ⟨-, rfl⟩ := honly results t₂ (hbegun.trans hrest)
    exact ⟨results, hrest⟩

/-- A batch leaves the inputs apart, and processing them again changes nothing. -/
theorem Merged.again (hload : load.OnlyLooksAt) (hapart : inputs.Pairwise (Apart t))
    (h : Merged z load o inputs t t') :
    inputs.Pairwise (Apart t') ∧ Merged z load o inputs t' t' := by
  refine ⟨hapart.imp_of_mem fun hp hq hpq => ?_, .refl _ _, fun p hp => ?_⟩
  · exact hpq.of_undisturbed (h.undisturbed hapart hp) (h.undisturbed hapart hq)
  · rw [processAlone_again hload hapart h hp]
    exact .refl _ _

/-- **The outcome of a batch does not depend on scheduling, and failures are isolated.** Let no two
of the inputs lead to one location, and none of them to or below the artifact or the unfinished
artifact of another. Then all schedules of the workers come to one end: the same report and the same
files. The report lists, in the order of the inputs, what becomes of each when it is processed
alone. A second batch finds all artifacts, fails where the first one failed, and changes nothing.

An exploration that never ends is given an outcome like any other, of which nothing is known
(`Stashes.run`). A batch waits for a worker that is caught in one in vain; here it goes on with that
outcome, and the other workers are not affected by it. -/
theorem batch_schedule_independent (z : Gzip.Compressor) (load : FileLoader σ)
    (hload : load.OnlyLooksAt) (o : Options)
    (inputs : List Path) (t : FileTree) (hapart : (Path.distinct inputs).Pairwise (Apart t)) :
    ∃ (report again : BatchReport) (t' : FileTree),
      BatchSettles z load o inputs t report t' ∧
      report.written = (Path.distinct inputs).filterMap
        (fun p => BatchReport.writtenEntry (processAlone z load o t p).1) ∧
      report.cached = (Path.distinct inputs).filterMap
        (fun p => BatchReport.cachedEntry (processAlone z load o t p).1) ∧
      report.failed = (Path.distinct inputs).filterMap
        (fun p => BatchReport.failedEntry p (processAlone z load o t p).1) ∧
      report.total = (Path.distinct inputs).length ∧
      BatchSettles z load o inputs t' again t' ∧
      again.written = [] ∧
      again.cached = ((Path.distinct inputs).filter fun p => (processAlone z load o t p).1.isOk).map
        Path.artifact ∧
      again.failed = report.failed := by
  obtain ⟨t', hmerged⟩ := exists_merged z hload o hapart
  obtain ⟨hapart', hmerged'⟩ := hmerged.again hload hapart
  have hfirst := hmerged.batchSettles hload hapart
  have hsecond := hmerged'.batchSettles hload hapart'
  have hresults : (Path.distinct inputs).map (fun p => (p, (processAlone z load o t' p).1)) =
      (Path.distinct inputs).map fun p =>
        (p, (processAlone z load o t p).1.map fun _ => .cached p.artifact) := by
    refine List.map_congr_left fun p hp => ?_
    rw [processAlone_again hload hapart hmerged hp]
  have htotal := BatchReport.total_ofResults_map (Path.distinct inputs) fun p =>
    (processAlone z load o t p).1
  rw [hresults, BatchReport.ofResults_cached _ fun p => (processAlone z load o t p).1] at hsecond
  rw [BatchReport.ofResults_map _ fun p => (processAlone z load o t p).1] at hfirst htotal
  exact ⟨_, _, t', hfirst, rfl, rfl, rfl, htotal, hsecond, rfl, rfl, rfl⟩

end

/-- A loader that finds a project without functions in everything that exists. -/
def emptyLoader : FileLoader WalkState := fun p => do
  match ← Script.status p with
  | .ok _ => return { Project.lasso with functions := [] }
  | .error _ => throw (.missing p.text)

/-- Two binaries, one of them with its artifact. -/
def mixedTree : FileTree :=
  (((⟨∅, []⟩ : FileTree).putFile ["a"] []).putFile ["a.vex.json.gz"] []).putFile ["b"] []

/-- A binary without an artifact, in two spellings, one that does not exist, and one with an
artifact. -/
def mixedInputs : List Path :=
  [⟨"/b"⟩, ⟨"/c"⟩, ⟨"//b"⟩, ⟨"/a"⟩]

theorem batch_schedule_independent_mixed :
    emptyLoader.OnlyLooksAt ∧ (Path.distinct mixedInputs).Pairwise (Apart mixedTree) ∧
    ∃ t', BatchSettles Gzip.stored emptyLoader {} mixedInputs mixedTree
        ⟨[⟨"/b.vex.json.gz"⟩], [⟨"/a.vex.json.gz"⟩], [(⟨"/c"⟩, "Binary not found at /c")]⟩ t' ∧
      BatchSettles Gzip.stored emptyLoader {} mixedInputs t'
        ⟨[], [⟨"/b.vex.json.gz"⟩, ⟨"/a.vex.json.gz"⟩], [(⟨"/c"⟩, "Binary not found at /c")]⟩
        t' := by
  have hload : emptyLoader.OnlyLooksAt := by
    refine fun p => ⟨.inl rfl, fun answer => ?_⟩
    cases answer <;> trivial
  have hapart : (Path.distinct mixedInputs).Pairwise (Apart mixedTree) := by decide +kernel
  have hrun : ((processAll Gzip.stored emptyLoader {} mixedInputs).run mixedTree).value.1 =
      ⟨[⟨"/b.vex.json.gz"⟩], [⟨"/a.vex.json.gz"⟩], [(⟨"/c"⟩, "Binary not found at /c")]⟩ := by
    decide +kernel
  have hfound : ((Path.distinct mixedInputs).filter fun p =>
      (processAlone Gzip.stored emptyLoader {} mixedTree p).1.isOk).map Path.artifact =
        [⟨"/b.vex.json.gz"⟩, ⟨"/a.vex.json.gz"⟩] := by
    decide +kernel
  obtain ⟨report, ⟨written, cached, failed⟩, t', hfirst, -, -, -, -, hsecond, hwritten, hcached,
    hfailed⟩ :=
    batch_schedule_independent Gzip.stored emptyLoader hload {} mixedInputs mixedTree hapart
  rw [hfirst.processed] at hrun
  obtain rfl : report = _ := hrun
  obtain rfl : written = [] := hwritten
  obtain rfl : cached = _ := hcached.trans hfound
  obtain rfl : failed = _ := hfailed
  exact ⟨hload, hapart, t', hfirst, hsecond⟩

end SymbolicPaths
