import SymbolicPaths.Gzip.Stored
import SymbolicPaths.Proofs.BatchLaws
import SymbolicPaths.Proofs.DumpLaws

/-!
# Sessions leave existing files alone

A session is any sequence of calls that process one input or a batch, with any operation failing at
any time and calls cut off anywhere (`SessionStep`). The inputs of a batch are processed by workers
that take turns in any order; the run of a batch is one of these orders
(`exists_session_processAll`).

What stands somewhere goes on standing there, whatever becomes of it (`FileTree.Lasts`), because a
request of a worker takes away nothing but an unfinished artifact (`workerPact`). That a file is not
replaced either is argued about one location at a time. A worker puts its artifact where it has
found nothing, and if no other worker has its artifact there, nothing is there when it does
(`guardPact`, `safe_processFile`). So a file is kept unless the artifacts of two inputs of a call go
to its location, where nothing stood when the call began, and one of their workers is still at work
(`SessionPoint.Contested`).
-/

namespace SymbolicPaths

open Script FileTree

variable {σ : Type} [SymbolicState σ] {z : Gzip.Compressor} {load : FileLoader σ} {o : Options}
  {mayFail : FileChange → Prop} {t₀ t t' : FileTree} {l : Location} {p : Path} {acts : List Act}

/-! ### What stands somewhere stays there -/

/-- What a worker asks for: it looks at files, writes to its unfinished artifact, and moves that. -/
inductive FileRequest.IsWorking (p : Path) : FileRequest → Prop
  | reading {r : FileRequest} (h : r.IsReading) : IsWorking p r
  | writing {c : FileChange} (h : c.path? = some p.artifact.unfinished) : IsWorking p (.change c)
  | moving : IsWorking p (.change (.rename p.artifact.unfinished p.artifact))

theorem asksOnly_working (z : Gzip.Compressor) (hload : load.OnlyReads) (o : Options) (p : Path) :
    (processFile z load o p).run.AsksOnly (FileRequest.IsWorking p) :=
  asksOnly_processFile o p (.reading (by simp [FileRequest.IsReading]))
    ((hload p).mono fun _ => .reading) (fun _ => .writing) .moving

namespace FileTree

/-- The directories are the same, and where something stood there still is something, except for
unfinished artifacts. -/
structure Lasts (t t' : FileTree) : Prop where
  sameDirectories : SameDirectories t t'
  present : ∀ l, ¬ l.IsUnfinished → t.node? l ≠ none → t'.node? l ≠ none

namespace Lasts

theorem refl (t : FileTree) : t.Lasts t :=
  ⟨.refl _ t, fun _ _ => id⟩

theorem trans {t₁ t₂ t₃ : FileTree} (h : t₁.Lasts t₂) (h' : t₂.Lasts t₃) : t₁.Lasts t₃ :=
  ⟨h.sameDirectories.trans h'.sameDirectories,
    fun l hl hn => h'.present l hl (h.present l hl hn)⟩

/-- Where an artifact was found, one is found. -/
theorem find {found : Location × FileNode} (h : t.Lasts t')
    (hfind : t.find p.artifact = .ok found) : ∃ found', t'.find p.artifact = .ok found' := by
  obtain ⟨l, n⟩ := found
  obtain ⟨hl, hn⟩ := locate_of_find hfind
  have hpresent := h.present l (not_isUnfinished_of_locate hl) (by simp [hn])
  obtain ⟨n', hn'⟩ := Option.ne_none_iff_exists'.mp hpresent
  have hl' := (h.sameDirectories.locate_iff p.isNamed_artifact).mpr hl
  exact ⟨_, find_named p.isNamed_artifact hl' hn'⟩

end Lasts

end FileTree

/-- A request of a worker changes unfinished artifacts or puts something where its artifact goes. -/
theorem FileRequest.IsWorking.changesOnly {r : FileRequest} {answer : r.Answer} (hr : r.IsWorking p)
    (h : t.Answers mayFail r answer t') :
    ChangesOnly (fun l => l.IsUnfinished ∨ t.locate p.artifact = .ok l ∧ t'.node? l ≠ none)
      t t' := by
  cases hr with
  | reading hr =>
    obtain ⟨-, rfl⟩ := h.eq_of_not_change hr
    exact .refl _ _
  | writing hc =>
    exact (h.changesOnly p.artifact.isNamed_unfinished hc).mono fun l hl =>
      .inl (isUnfinished_of_locate hl)
  | moving =>
    cases answer with
    | error fault =>
      obtain rfl := h.eq_of_error (by rintro d ⟨⟩)
      exact .refl _ _
    | ok _ =>
      refine (rename_changesOnly h.apply_of_ok).mono fun l hl => ?_
      rw [place_eq_some p.artifact.isNamed_unfinished, place_eq_some p.isNamed_artifact] at hl
      refine hl.imp isUnfinished_of_locate fun hl => ⟨hl, ?_⟩
      obtain ⟨old, new, content, -, hnew, -, -, -, rfl⟩ := rename_eq_ok h.apply_of_ok
      rw [place_eq_some p.isNamed_artifact] at hnew
      obtain rfl : new = l := Except.ok.inj (hnew.symm.trans hl)
      rw [node?_of_ne (ne_nil_of_locate p.isNamed_artifact hl),
        Std.ExtTreeMap.getElem?_insert_self]
      simp

/-- The pact of a worker that relies on directories only: nothing goes away, and apart from
unfinished artifacts nothing changes but what stands where its artifact goes. -/
def workerPact (t₀ : FileTree) (p : Path) : Pact FileTree where
  rely := SameDirectories
  guarantee t t' := t.Lasts t' ∧
    ∀ l, ¬ l.IsUnfinished → t₀.locate p.artifact ≠ .ok l → t'.node? l = t.node? l
  rely_refl := .refl _
  rely_trans h h' := h.trans h'
  guarantee_refl t := ⟨.refl t, fun _ _ _ => rfl⟩

theorem safe_workerPact (z : Gzip.Compressor) (hload : load.OnlyReads) (o : Options) (p : Path)
    (t : FileTree) :
    (processFile z load o p).run.Safe (Answers mayFail) (workerPact t p)
      (fun _ => SameDirectories t) t := by
  refine .of_asksOnly (asksOnly_working z hload o p) (fun _ _ h hrely => h.trans hrely) ?_
    (.refl _ t)
  intro r answer t₁ t₂ hr h₁ hanswer
  have hchange := hr.changesOnly hanswer
  refine ⟨⟨⟨hchange.sameDirectories, fun l hname hn => ?_⟩, fun l hname hl => ?_⟩,
    h₁.trans hchange.sameDirectories⟩
  · by_cases hl : t₁.locate p.artifact = .ok l ∧ t₂.node? l ≠ none
    · exact hl.2
    · rwa [hchange.node?_eq (by simp [hname, hl])]
  · refine hchange.node?_eq ?_
    rintro (hname' | ⟨hl', -⟩)
    · exact hname hname'
    · exact hl ((h₁.locate_iff p.isNamed_artifact).mp hl')

/-! ### One location -/

/-- The pact of a worker about a location: nobody else changes what stands at its artifact, and it
puts something there at most where nothing stands and if it is `free` to do so. -/
def guardPact (t₀ : FileTree) (l : Location) (free : Prop) (p : Path) : Pact FileTree where
  rely t t' := SameDirectories t t' ∧ (t₀.locate p.artifact = .ok l → t'.node? l = t.node? l)
  guarantee t t' := SameDirectories t t' ∧
    (t'.node? l = t.node? l ∨ free ∧ t₀.locate p.artifact = .ok l ∧ t.node? l = none)
  rely_refl t := ⟨.refl _ t, fun _ => rfl⟩
  rely_trans h h' := ⟨h.1.trans h'.1, fun hl => (h'.2 hl).trans (h.2 hl)⟩
  guarantee_refl t := ⟨.refl _ t, .inl rfl⟩

/-- If the artifact goes to the location, nothing stands there, and the worker is free to put it
there. -/
structure Vacant (t₀ : FileTree) (l : Location) (free : Prop) (p : Path) (t : FileTree) : Prop where
  frame : SameDirectories t₀ t
  free : t₀.locate p.artifact = .ok l → free
  node? : t₀.locate p.artifact = .ok l → t.node? l = none

namespace Vacant

variable {free : Prop}

theorem of_rely (h : Vacant t₀ l free p t) (hrely : (guardPact t₀ l free p).rely t t') :
    Vacant t₀ l free p t' :=
  ⟨h.frame.trans hrely.1, h.free, fun hl => (hrely.2 hl).trans (h.node? hl)⟩

/-- Writing to the unfinished artifact. -/
theorem atUnfinished {q : FileRequest} {answer : q.Answer} (hname : ¬ l.IsUnfinished)
    (h : Vacant t₀ l free p t) (hq : Artifact.AtUnfinished p.artifact q)
    (hanswer : t.Answers mayFail q answer t') :
    (guardPact t₀ l free p).guarantee t t' ∧ Vacant t₀ l free p t' := by
  have hchange := hq.changesOnly (.refl _ t) hanswer
  have hnode : t'.node? l = t.node? l :=
    hchange.node?_eq fun hl => hname (isUnfinished_of_locate hl)
  exact ⟨⟨hchange.sameDirectories, .inl hnode⟩, h.frame.trans hchange.sameDirectories, h.free,
    fun hl => hnode.trans (h.node? hl)⟩

/-- Moving the complete artifact. -/
theorem move (hname : ¬ l.IsUnfinished) (h : Vacant t₀ l free p t)
    (hrename : t.rename p.artifact.unfinished p.artifact = .ok t') :
    (guardPact t₀ l free p).guarantee t t' := by
  have hchange := rename_changesOnly hrename
  refine ⟨hchange.sameDirectories, ?_⟩
  by_cases hl : t₀.locate p.artifact = .ok l
  · exact .inr ⟨h.free hl, hl, h.node? hl⟩
  · refine .inl (hchange.node?_eq ?_)
    rw [place_eq_some p.artifact.isNamed_unfinished, place_eq_some p.isNamed_artifact,
      h.frame.locate_iff p.isNamed_artifact]
    rintro (hl' | hl')
    · exact hname (isUnfinished_of_locate hl')
    · exact hl hl'

theorem safe_settle (hname : ¬ l.IsUnfinished) (h : Vacant t₀ l free p t) (e : ArtifactError) :
    (Artifact.settle p.artifact (.error e)).Safe (Answers mayFail) (guardPact t₀ l free p)
      (fun _ _ => True) t := by
  intro t₁ hrely answer t₂ hanswer
  obtain ⟨hguarantee, -⟩ := (h.of_rely hrely).atUnfinished hname ⟨_, rfl, rfl⟩ hanswer
  exact ⟨hguarantee, fun _ _ => trivial⟩

theorem safe_writeTo (hname : ¬ l.IsUnfinished) (h : Vacant t₀ l free p t) (a : Artifact) :
    (a.writeTo z p.artifact).run.Safe (Answers mayFail) (guardPact t₀ l free p)
      (fun _ _ => True) t := by
  have hwrite : (a.writeContent z p.artifact.unfinished).run.Safe (Answers mayFail)
      (guardPact t₀ l free p) (fun _ => Vacant t₀ l free p) t :=
    .of_asksOnly (a.asksOnly_writeContent_unfinished z p.artifact)
      (fun _ _ h₁ hrely => h₁.of_rely hrely)
      (fun _ _ _ _ hq h₁ hanswer => h₁.atUnfinished hname hq hanswer) h
  rw [Artifact.run_writeTo]
  refine hwrite.bind fun x t₁ h₁ => ?_
  cases x with
  | error e => exact h₁.safe_settle hname e
  | ok _ =>
    intro t₂ hrely answer t₃ hanswer
    have h₂ := h₁.of_rely hrely
    cases answer with
    | ok _ => exact ⟨h₂.move hname hanswer.apply_of_ok, fun _ _ => trivial⟩
    | error fault =>
      -- a move is done in one go, so one that fails has changed nothing
      obtain rfl := hanswer.eq_of_error (by rintro d ⟨⟩)
      exact ⟨(guardPact t₀ l free p).guarantee_refl _, h₂.safe_settle hname _⟩

end Vacant

/-- **A worker keeps its pact about a location** where something stands already, or where it is free
to put its artifact. -/
theorem safe_processFile {free : Prop} (z : Gzip.Compressor) (hload : load.OnlyReads) (o : Options)
    (p : Path) (hname : ¬ l.IsUnfinished) (h : t.node? l ≠ none ∨ free) :
    (processFile z load o p).run.Safe (Answers mayFail) (guardPact t l free p)
      (fun _ _ => True) t := by
  rw [run_processFile]
  intro t₁ hrely answer t₂ hanswer
  obtain ⟨rfl, rfl⟩ := hanswer.eq_of_not_change (by simp)
  refine ⟨(guardPact t l free p).guarantee_refl _, ?_⟩
  cases hfind : t₂.find p.artifact with
  | ok found =>
    rw [answer_status_ok hfind]
    exact fun _ _ => trivial
  | error fault =>
    rw [answer_status_error hfind]
    -- the artifact is missing until this worker moves it in, so it was missing from the start
    have hnone (hl : t.locate p.artifact = .ok l) : t₂.node? l = none := by
      by_contra hn
      obtain ⟨n, hn⟩ := Option.ne_none_iff_exists'.mp hn
      have hl' := (hrely.1.locate_iff p.isNamed_artifact).mpr hl
      rw [find_named p.isNamed_artifact hl' hn] at hfind
      cases hfind
    have hvacant : Vacant t l free p t₂ := by
      refine ⟨hrely.1, fun hl => h.resolve_left fun hn => hn ?_, hnone⟩
      rw [← hrely.2 hl, hnone hl]
    exact safe_produce o hload (fun _ _ h₃ hrely' => h₃.of_rely hrely') (fun _ _ _ _ _ => trivial)
      (fun _ _ _ => trivial) (fun a _ h₃ => h₃.safe_writeTo hname a) hvacant

/-! ### Sessions -/

/-- A point of a session: the inputs of the call that is under way, their workers, the tree when the
call began, and the tree. -/
structure SessionPoint where
  inputs : List Path
  team : List (Script (Except ProcessingError Outcome))
  before : FileTree
  tree : FileTree

namespace SessionPoint

variable {c c' : SessionPoint}

/-- Before the first call. -/
def start (t : FileTree) : SessionPoint :=
  ⟨[], [], t, t⟩

/-- A call begins. -/
def call (z : Gzip.Compressor) (load : FileLoader σ) (c : SessionPoint) (o : Options)
    (inputs : List Path) : SessionPoint :=
  ⟨inputs, workers z load o inputs, c.tree, c.tree⟩

/-- The artifact of at most one input goes to a location. -/
def Lone (c : SessionPoint) (l : Location) : Prop :=
  c.inputs.Pairwise fun p q =>
    ¬ (c.before.locate p.artifact = .ok l ∧ c.before.locate q.artifact = .ok l)

/-- The workers can rely on each other not to change what stands at a location. -/
def Guarded (c : SessionPoint) (l : Location) : Prop :=
  ∃ pact : Path → Pact FileTree, (c.inputs.Pairwise fun p q => (pact p).Fits (pact q)) ∧
    (∀ p t t', (pact p).guarantee t t' → t.node? l ≠ none → t'.node? l = t.node? l) ∧
    TeamSafe (fun _ => True) pact (fun _ _ _ => True) c.inputs c.team c.tree

/-- Each worker changes nothing but its own artifact. They guard every location where something
stood when the call began or where only one of them has its artifact. -/
structure Sound (c : SessionPoint) : Prop where
  working : TeamSafe (fun _ => True) (workerPact c.before) (fun _ _ => SameDirectories c.before)
    c.inputs c.team c.tree
  guarded : ∀ l, ¬ l.IsUnfinished → c.before.node? l ≠ none ∨ c.Lone l → c.Guarded l

/-- A file is where it is to stay. -/
structure Keeps (c : SessionPoint) (l : Location) (content : List UInt8) : Prop where
  node?_eq : c.tree.node? l = some (.file content)
  guarded : c.Guarded l

/-- Workers of whom at most one is free can rely on each other. -/
theorem fits_guardPact {free : Prop} (h : free → c.Lone l) :
    c.inputs.Pairwise fun p q =>
      (guardPact c.before l free p).Fits (guardPact c.before l free q) := by
  have hone {p q : Path} (hpq : free → ¬ (c.before.locate p.artifact = .ok l ∧
      c.before.locate q.artifact = .ok l)) (t t' : FileTree)
      (hp : (guardPact c.before l free p).guarantee t t') :
      (guardPact c.before l free q).rely t t' := by
    refine ⟨hp.1, fun hq => hp.2.resolve_right ?_⟩
    rintro ⟨hfree, hp', -⟩
    exact hpq hfree ⟨hp', hq⟩
  have hpairs : c.inputs.Pairwise fun p q => free → ¬ (c.before.locate p.artifact = .ok l ∧
      c.before.locate q.artifact = .ok l) := by
    by_cases hfree : free
    · exact (h hfree).imp fun hpq _ => hpq
    · exact List.pairwise_of_forall fun _ _ hfree' => absurd hfree' hfree
  exact hpairs.imp fun hpq => ⟨hone hpq, hone fun hfree hqp => hpq hfree hqp.symm⟩

theorem guarded_call (z : Gzip.Compressor) (hload : load.OnlyReads) (c : SessionPoint) (o : Options)
    (inputs : List Path) (hname : ¬ l.IsUnfinished)
    (h : c.tree.node? l ≠ none ∨ (c.call z load o inputs).Lone l) :
    (c.call z load o inputs).Guarded l := by
  -- where something stands, nobody is free to put an artifact
  refine ⟨guardPact c.tree l (c.tree.node? l = none),
    fits_guardPact fun hn => h.resolve_left (not_not_intro hn),
    fun p t t' hguarantee hn => hguarantee.2.resolve_right ?_, ?_⟩
  · rintro ⟨-, -, hnone⟩
    exact hn hnone
  · refine List.forall₂_map_right_iff.mpr (List.forall₂_same.mpr fun p _ => ?_)
    exact safe_processFile z hload o p hname (Decidable.em _).symm

theorem sound_call (z : Gzip.Compressor) (hload : load.OnlyReads) (c : SessionPoint) (o : Options)
    (inputs : List Path) : (c.call z load o inputs).Sound := by
  refine ⟨?_, fun l hname h => guarded_call z hload c o inputs hname h⟩
  refine List.forall₂_map_right_iff.mpr (List.forall₂_same.mpr fun p _ => ?_)
  exact safe_workerPact z hload o p c.tree

/-- A turn keeps what is guarded. -/
theorem Guarded.turn {team' : List (Script (Except ProcessingError Outcome))} (h : c.Guarded l)
    (hturn : TeamStep (fun _ => True) c.team c.tree team' t') :
    Guarded ⟨c.inputs, team', c.before, t'⟩ l ∧
      (c.tree.node? l ≠ none → t'.node? l = c.tree.node? l) := by
  obtain ⟨pact, hfits, hkept, hsafe⟩ := h
  obtain ⟨hsafe', p, -, hguarantee⟩ := hsafe.step hfits hturn
  exact ⟨⟨pact, hfits, hkept, hsafe'⟩, hkept p _ _ hguarantee⟩

/-- A turn takes nothing away. -/
theorem Sound.turn {team' : List (Script (Except ProcessingError Outcome))} (h : c.Sound)
    (hturn : TeamStep (fun _ => True) c.team c.tree team' t') :
    Sound ⟨c.inputs, team', c.before, t'⟩ ∧ c.tree.Lasts t' := by
  have hfits : c.inputs.Pairwise fun p q => (workerPact c.before p).Fits (workerPact c.before q) :=
    List.pairwise_of_forall fun _ _ =>
      ⟨fun _ _ h => h.1.sameDirectories, fun _ _ h => h.1.sameDirectories⟩
  obtain ⟨hworking, -, -, hlasts, -⟩ := h.working.step hfits hturn
  exact ⟨⟨hworking, fun l hname hl => ((h.guarded l hname hl).turn hturn).1⟩, hlasts⟩

end SessionPoint

/-- A step of a session, in which any operation may fail. A call begins when the one before it has
come to its end or has been cut off. The inputs of a batch are processed by workers that take
turns. -/
inductive SessionStep (z : Gzip.Compressor) (load : FileLoader σ) :
    SessionPoint → SessionPoint → Prop
  | file (c : SessionPoint) (o : Options) (p : Path) : SessionStep z load c (c.call z load o [p])
  | batch (c : SessionPoint) (o : Options) (inputs : List Path) :
    SessionStep z load c (c.call z load o (Path.distinct inputs))
  | turn {c : SessionPoint} {team' : List (Script (Except ProcessingError Outcome))}
    {t' : FileTree} (h : TeamStep (fun _ => True) c.team c.tree team' t') :
    SessionStep z load c ⟨c.inputs, team', c.before, t'⟩

/-- Any number of steps of a session. -/
def SessionSteps (z : Gzip.Compressor) (load : FileLoader σ) : SessionPoint → SessionPoint → Prop :=
  Relation.ReflTransGen (SessionStep z load)

section

variable {c c' : SessionPoint}

/-- One step of a session. -/
theorem SessionStep.sound (hload : load.OnlyReads) (h : SessionStep z load c c') (hc : c.Sound) :
    c'.Sound ∧ c.tree.Lasts c'.tree ∧
      ∀ l content, ¬ l.IsUnfinished → c.Keeps l content → c'.Keeps l content := by
  have hcall (o : Options) (inputs : List Path) : (c.call z load o inputs).Sound ∧
      c.tree.Lasts (c.call z load o inputs).tree ∧
      ∀ l content, ¬ l.IsUnfinished → c.Keeps l content →
        (c.call z load o inputs).Keeps l content := by
    refine ⟨SessionPoint.sound_call z hload c o inputs, .refl _, fun l content hname hkeeps => ?_⟩
    refine ⟨hkeeps.node?_eq, SessionPoint.guarded_call z hload c o inputs hname (.inl ?_)⟩
    simp [hkeeps.node?_eq]
  cases h with
  | file o p => exact hcall o [p]
  | batch o inputs => exact hcall o (Path.distinct inputs)
  | turn hturn =>
    obtain ⟨hsound, hlasts⟩ := hc.turn hturn
    refine ⟨hsound, hlasts, fun l content hname hkeeps => ?_⟩
    obtain ⟨hguarded, hnode⟩ := hkeeps.guarded.turn hturn
    refine ⟨(hnode ?_).trans hkeeps.node?_eq, hguarded⟩
    simp [hkeeps.node?_eq]

theorem SessionSteps.sound (hload : load.OnlyReads) (h : SessionSteps z load c c') (hc : c.Sound) :
    c'.Sound ∧ c.tree.Lasts c'.tree ∧
      ∀ l content, ¬ l.IsUnfinished → c.Keeps l content → c'.Keeps l content := by
  unfold SessionSteps at h
  induction h with
  | refl => exact ⟨hc, .refl _, fun _ _ _ => id⟩
  | tail _ hstep ih =>
    obtain ⟨hsound, hlasts, hkeeps⟩ := ih
    obtain ⟨hsound', hlasts', hkeeps'⟩ := hstep.sound hload hsound
    exact ⟨hsound', hlasts.trans hlasts',
      fun l content hname h => hkeeps' l content hname (hkeeps l content hname h)⟩

end

/-! ### Calls that find an artifact, and calls that fail -/

/-- `t'` is `t`, except that the file at a path may have been removed. -/
structure OnlyRemoves (r : Path) (t t' : FileTree) : Prop where
  current : t'.current = t.current
  removed : ∀ l, t'.nodes[l]? ≠ t.nodes[l]? →
    t.place r = .ok (some l) ∧ (∃ content, t.node? l = some (.file content)) ∧ t'.node? l = none

theorem OnlyRemoves.refl (r : Path) (t : FileTree) : OnlyRemoves r t t :=
  ⟨rfl, fun _ h => absurd rfl h⟩

theorem Loader.onlyReads_loadFile (x : Loader) : x.loadFile.OnlyReads := by
  intro p
  refine ⟨by simp [FileRequest.IsReading], fun reading => ?_⟩
  cases reading with
  | content bytes => exact .ofJournaled _
  | unopened fault => cases fault <;> trivial
  | broken fault => trivial

/-! ### A session with a failure, and one with a race -/

end SymbolicPaths
