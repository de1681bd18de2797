import SymbolicPaths.Proofs.ArtifactJson
import SymbolicPaths.Proofs.ScriptTeams

/-!
# Writing an artifact

An artifact is written to an unfinished file beside the target, which is then moved to the target.
Up to the move, every request is about the unfinished file (`asksOnly_writeContent`). The move puts
the complete artifact at the target, because it is only made when every operation before it has
succeeded (`Writable.safe_writeContent`). What a write can do at any point is said once, for any
environment in which a path is `Writable`, in `Writable.steps_writeTo`.

A tree of files is such an environment (`writable_unfinished`), and there the unfinished file never
stands where the target leads to (`goal_ne_unfinished`). Where no operation fails for reasons
outside the tree and nothing stands at the target, a write fails only if the unfinished file cannot
be created (`safe_writeTo_never`).
-/

namespace SymbolicPaths

open FileTree

theorem Path.isNamed_unfinished (p : Path) : p.unfinished.IsNamed :=
  isNamed_append (by decide) (by decide)

namespace Artifact

open Script

variable {a : Artifact} {z : Gzip.Compressor} {p r : Path} {acts : List Act}

theorem flatten_portions (bytes : List UInt8) : (portions bytes).flatten = bytes := by
  fun_induction portions bytes with
  | case1 bytes h => simpa using (List.isEmpty_iff.mp h).symm
  | case2 bytes h ih => rw [List.flatten_cons, ih, List.take_append_drop]

theorem run_demand (c : FileChange) (error : FileFault → ArtifactError) :
    (demand c error).run = .ask (.change c) fun answer => .done (answer.mapError error) := by
  change Script.ask (.change c) _ = _
  congr 1
  funext answer
  cases answer <;> rfl

/-! ### What writing asks for -/

section

variable {P : FileRequest → Prop} {error : FileFault → ArtifactError}

theorem asksOnly_demand {c : FileChange} (h : P (.change c)) :
    (demand c error).run.AsksOnly P := by
  rw [run_demand]
  exact ⟨h, fun _ => trivial⟩

theorem asksOnly_portions (h : ∀ c, c.path? = some r → P (.change c))
    (pieces : List (List UInt8)) :
    (pieces.forM fun piece => demand (.append r piece) error).run.AsksOnly P := by
  induction pieces with
  | nil => trivial
  | cons piece rest ih => exact .bindExcept (asksOnly_demand (h _ rfl)) fun _ => ih

/-- Nothing but the file at the path is written to. -/
theorem asksOnly_writeContent (a : Artifact) (z : Gzip.Compressor)
    (h : ∀ c, c.path? = some r → P (.change c)) : (a.writeContent z r).run.AsksOnly P := by
  refine .bindExcept (asksOnly_demand (h _ rfl)) fun _ => ?_
  refine .bindExcept (asksOnly_portions h _) fun _ => ?_
  refine .bindExcept (asksOnly_demand (h _ rfl)) fun _ => ?_
  refine .bindExcept (asksOnly_demand (h _ rfl)) fun _ => ?_
  exact asksOnly_demand (h _ rfl)

end

/-- Requests to write to the unfinished file. -/
def AtUnfinished (p : Path) (r : FileRequest) : Prop :=
  ∃ c, r = .change c ∧ c.path? = some p.unfinished

theorem asksOnly_writeContent_unfinished (a : Artifact) (z : Gzip.Compressor) (p : Path) :
    (a.writeContent z p.unfinished).run.AsksOnly (AtUnfinished p) :=
  a.asksOnly_writeContent z fun c hc => ⟨c, rfl, hc⟩

/-- What remains to be done when the content has been moved or something has failed. -/
def settle (p : Path) : Except ArtifactError Unit → Script (Except ArtifactError Unit)
  | .ok _ => .done (.ok ())
  | .error e => .ask (.change (.remove p.unfinished)) fun _ => .done (.error e)

/-- What remains to be done when the content has been written or something has failed. -/
def conclude (p : Path) : Except ArtifactError Unit → Script (Except ArtifactError Unit)
  | .ok _ =>
    .ask (.change (.rename p.unfinished p)) fun answer => settle p (answer.mapError (.file p))
  | .error e => settle p (.error e)

theorem conclude_ne_done (x y : Except ArtifactError Unit) : conclude p x ≠ .done y := by
  cases x <;> exact fun h => by cases h

theorem run_writeTo (a : Artifact) (z : Gzip.Compressor) (p : Path) :
    (a.writeTo z p).run = (a.writeContent z p.unfinished).run >>= conclude p := by
  rw [writeTo, ExceptT.run_tryCatch, ExceptT.run_bind]
  rw [bind_assoc]
  congr 1
  funext x
  cases x with
  | error e => rfl
  | ok _ =>
    rw [run_demand]
    change Script.ask _ _ = Script.ask _ _
    congr 1
    funext answer
    cases answer <;> rfl

/-- What writing an artifact asks for. -/
theorem asksOnly_writeTo {P : FileRequest → Prop} (a : Artifact) (z : Gzip.Compressor)
    (p : Path) (hat : ∀ c, c.path? = some p.unfinished → P (.change c))
    (hmove : P (.change (.rename p.unfinished p))) : (a.writeTo z p).run.AsksOnly P := by
  have hsettle : ∀ x, (settle p x).AsksOnly P := by
    intro x
    cases x with
    | ok _ => trivial
    | error e => exact ⟨hat _ rfl, fun _ => trivial⟩
  rw [run_writeTo]
  refine (a.asksOnly_writeContent z hat).bind fun x => ?_
  cases x with
  | ok _ => exact ⟨hmove, fun answer => hsettle _⟩
  | error e => exact hsettle (.error e)

/-! ### Writing where a path is writable -/

section

variable {τ : Type} {env : Environment τ} {I : τ → Prop} {holds : τ → List UInt8 → Prop}
  {blame : FileChange → Prop} {t t' : τ}

/-- A file can be written to at a path: `I` survives whatever becomes of an operation there, and
`holds` says what the file holds. An operation on a file that is there fails only if it is to
blame. -/
structure Writable (env : Environment τ) (r : Path) (I : τ → Prop)
    (holds : τ → List UInt8 → Prop) (blame : FileChange → Prop) : Prop where
  keeps : ∀ {c : FileChange} {answer t t'}, c.path? = some r → I t →
    env t (.change c) answer t' → I t'
  create : ∀ {t t'}, I t → env t (.change (.create r)) (.ok ()) t' → holds t' []
  append : ∀ {content before t t'}, I t → holds t before →
    env t (.change (.append r content)) (.ok ()) t' → holds t' (before ++ content)
  settled : ∀ {c : FileChange} {content t t'}, c = .flush r ∨ c = .sync r → I t →
    holds t content → env t (.change c) (.ok ()) t' → holds t' content
  failed : ∀ {c : FileChange} {content fault t t'}, c.path? = some r → I t → holds t content →
    env t (.change c) (.error fault) t' → blame c

/-- How writing to a path can end: with a content there, or with an operation on the path that
failed. -/
structure Wrote (r : Path) (I : τ → Prop) (holds : τ → List UInt8 → Prop)
    (blame : FileChange → Prop) (content : List UInt8) (x : Except ArtifactError Unit) (t : τ) :
    Prop where
  inv : I t
  ok : x = .ok () → holds t content
  error : ∀ e, x = .error e → ∃ c, c.path? = some r ∧ blame c

theorem Wrote.safe_bind {x y : ExceptT ArtifactError Script Unit} {before after : List UInt8}
    (hx : x.run.Safe env .alone (Wrote r I holds blame before) t)
    (hy : ∀ t', I t' → holds t' before →
      y.run.Safe env .alone (Wrote r I holds blame after) t') :
    (x >>= fun _ => y).run.Safe env .alone (Wrote r I holds blame after) t := by
  refine hx.bindExcept (fun _ t' h => hy t' h.inv (h.ok rfl)) fun e t' h => ?_
  rintro _ rfl
  exact ⟨h.inv, by rintro ⟨⟩, fun _ _ => h.error e rfl⟩

namespace Writable

variable (w : Writable env r I holds blame)

include w

/-- An operation on a file that is there. -/
theorem safe_demand {c : FileChange} {error : FileFault → ArtifactError}
    {before after : List UInt8} (hc : c.path? = some r) (ht : I t) (h : holds t before)
    (hok : ∀ t', env t (.change c) (.ok ()) t' → holds t' after) :
    (demand c error).run.Safe env .alone (Wrote r I holds blame after) t := by
  rw [run_demand]
  rintro _ rfl answer t₁ hanswer
  refine ⟨trivial, ?_⟩
  rintro _ rfl
  have ht₁ := w.keeps hc ht hanswer
  cases answer with
  | ok _ => exact ⟨ht₁, fun _ => hok t₁ hanswer, by rintro e ⟨⟩⟩
  | error fault => exact ⟨ht₁, by rintro ⟨⟩, fun _ _ => ⟨c, hc, w.failed hc ht h hanswer⟩⟩

theorem safe_append {error : FileFault → ArtifactError} {before content : List UInt8}
    (ht : I t) (h : holds t before) :
    (demand (.append r content) error).run.Safe env .alone
      (Wrote r I holds blame (before ++ content)) t :=
  w.safe_demand rfl ht h fun _ hanswer => w.append ht h hanswer

theorem safe_portions (error : FileFault → ArtifactError) (pieces : List (List UInt8))
    {before : List UInt8} (ht : I t) (h : holds t before) :
    (pieces.forM fun piece => demand (.append r piece) error).run.Safe env .alone
      (Wrote r I holds blame (before ++ pieces.flatten)) t := by
  induction pieces generalizing t before with
  | nil =>
    rintro _ rfl
    exact ⟨ht, fun _ => by simpa using h, by rintro e ⟨⟩⟩
  | cons piece rest ih =>
    rw [List.flatten_cons, ← List.append_assoc]
    exact Wrote.safe_bind (w.safe_append ht h) fun t' ht' h' => ih ht' h'

/-- What has been handed on or stored is still there. -/
theorem safe_settled {c : FileChange} {error : FileFault → ArtifactError} {content : List UInt8}
    (hc : c = .flush r ∨ c = .sync r) (ht : I t) (h : holds t content) :
    (demand c error).run.Safe env .alone (Wrote r I holds blame content) t := by
  have hpath : c.path? = some r := by
    rcases hc with rfl | rfl <;> rfl
  exact w.safe_demand hpath ht h fun _ hanswer => w.settled hc ht h hanswer

/-- Writing the content of a file fails at its creation, or because of an operation that is to
blame. -/
theorem safe_writeContent (a : Artifact) (z : Gzip.Compressor) (ht : I t) :
    (a.writeContent z r).run.Safe env .alone
      (fun x t' => I t' ∧ (x = .ok () → holds t' (z.stream a.compactText)) ∧
        ∀ e, x = .error e → (∃ fault, env t (.change (.create r)) (.error fault) t') ∨
          ∃ c, c.path? = some r ∧ blame c) t := by
  have hcreate : (demand (.create r) (.file r)).run.Safe env .alone
      (fun x t' => I t' ∧ (x = .ok () → holds t' []) ∧
        ∀ e, x = .error e → ∃ fault, env t (.change (.create r)) (.error fault) t') t := by
    rw [run_demand]
    rintro _ rfl answer t₁ hanswer
    refine ⟨trivial, ?_⟩
    rintro _ rfl
    refine ⟨w.keeps rfl ht hanswer, ?_⟩
    cases answer with
    | ok _ => exact ⟨fun _ => w.create ht hanswer, by rintro e ⟨⟩⟩
    | error fault => exact ⟨by rintro ⟨⟩, fun _ _ => ⟨fault, hanswer⟩⟩
  refine hcreate.bindExcept (fun _ t₁ h₁ => ?_) fun e t₁ h₁ => ?_
  · -- the file is there, so from now on an operation that fails is to blame
    have hportions := w.safe_portions (fun _ => .stream) (portions (z.body a.compactText)) h₁.1
      (h₁.2.1 rfl)
    rw [flatten_portions, List.nil_append] at hportions
    refine Safe.mono (Wrote.safe_bind hportions fun t₂ ht₂ h₂ => ?_) (fun _ _ => id) (fun _ _ => id)
      (fun x t' h => ⟨h.inv, h.ok, fun e he => .inr (h.error e he)⟩)
    refine Wrote.safe_bind (w.safe_append ht₂ h₂) fun t₃ ht₃ h₃ => ?_
    refine Wrote.safe_bind (w.safe_settled (.inl rfl) ht₃ h₃) fun t₄ ht₄ h₄ => ?_
    exact w.safe_settled (.inr rfl) ht₄ h₄
  · rintro _ rfl
    exact ⟨h₁.1, by rintro ⟨⟩, fun _ _ => .inl (h₁.2.2 e rfl)⟩

end Writable

/-- The act of moving a complete file to the target. -/
def moved (p : Path) : Act :=
  .exchange (.change (.rename p.unfinished p)) (.ok ())

/-- How writing to a path can end without success: an attempt to remove the unfinished file is the
last thing that happens. -/
def GaveUp (env : Environment τ) (I : τ → Prop) (p : Path) (acts : List Act)
    (x : Except ArtifactError Unit) (t' : τ) : Prop :=
  (∃ e, x = .error e) ∧ ∃ t₁ answer, I t₁ ∧ env t₁ (.change (.remove p.unfinished)) answer t' ∧
    .exchange (.change (.remove p.unfinished)) answer ∈ acts

/-- What holds before the unfinished file is moved, and whenever it is not. -/
structure Unmoved (env : Environment τ) (I : τ → Prop) (p : Path) (acts : List Act)
    (s' : Script (Except ArtifactError Unit)) (t' : τ) : Prop where
  inv : I t'
  not_mem : moved p ∉ acts
  gaveUp : ∀ x, s' = .done x → GaveUp env I p acts x t'

/-- What holds after the unfinished file has been moved. -/
def Moved (env : Environment τ) (I : τ → Prop) (holds : τ → List UInt8 → Prop) (a : Artifact)
    (z : Gzip.Compressor) (p : Path) (acts : List Act) (s' : Script (Except ArtifactError Unit))
    (t' : τ) : Prop :=
  s' = .done (.ok ()) ∧ moved p ∈ acts ∧
    ∃ t₁, I t₁ ∧ holds t₁ (z.stream a.compactText) ∧
      env t₁ (.change (.rename p.unfinished p)) (.ok ()) t'

theorem Unmoved.append {acts₁ acts₂ : List Act} {s' : Script (Except ArtifactError Unit)}
    (h₁ : moved p ∉ acts₁) (h : Unmoved env I p acts₂ s' t') :
    Unmoved env I p (acts₁ ++ acts₂) s' t' := by
  refine ⟨h.inv, by simp [h₁, h.not_mem], fun x hx => ?_⟩
  obtain ⟨he, t₁, answer, ht₁, hanswer, hmem⟩ := h.gaveUp x hx
  exact ⟨he, t₁, answer, ht₁, hanswer, List.mem_append_right acts₁ hmem⟩

namespace Writable

variable {s' : Script (Except ArtifactError Unit)}
  (w : Writable env p.unfinished I holds blame)

include w

theorem steps_settle {e : ArtifactError} (ht : I t)
    (h : Steps env (settle p (.error e)) t acts s' t') : Unmoved env I p acts s' t' := by
  obtain ⟨rfl, rfl, rfl⟩ | ⟨answer, t₁, rest, rfl, hanswer, hdone⟩ := h.of_ask
  · exact ⟨ht, by simp, by rintro x ⟨⟩⟩
  · obtain ⟨rfl, rfl, rfl⟩ := hdone.of_done
    refine ⟨w.keeps rfl ht hanswer, by simp [moved], ?_⟩
    rintro x ⟨⟩
    exact ⟨⟨e, rfl⟩, t, answer, ht, hanswer, List.mem_cons_self⟩

theorem steps_writeContent (ht : I t)
    (h : Steps env (a.writeContent z p.unfinished).run t acts s' t') : I t' ∧ moved p ∉ acts := by
  obtain ⟨ht', hacts⟩ := (a.asksOnly_writeContent_unfinished z p).steps (I := I)
    (by rintro _ answer t₁ t₂ ⟨c, rfl, hc⟩ ht₁ hanswer; exact w.keeps hc ht₁ hanswer) h ht
  refine ⟨ht', fun hmem => ?_⟩
  obtain ⟨c, hc, hpath⟩ := hacts _ _ hmem
  obtain rfl := FileRequest.change.inj hc
  cases hpath

/-- **What writing an artifact can do**, at every point and whatever fails. -/
theorem steps_writeTo
    (hrename : ∀ {fault t t'}, env t (.change (.rename p.unfinished p)) (.error fault) t' → t' = t)
    (ht : I t) (h : Steps env (a.writeTo z p).run t acts s' t') :
    Unmoved env I p acts s' t' ∨ Moved env I holds a z p acts s' t' := by
  rw [run_writeTo] at h
  obtain ⟨s₁, rfl, hwrite⟩ | ⟨acts₁, x, t₁, acts₂, rfl, hwrite, hconclude⟩ := h.of_bind
  · -- the content is still being written
    obtain ⟨ht', hacts⟩ := w.steps_writeContent ht hwrite
    refine .inl ⟨ht', hacts, fun x hx => ?_⟩
    obtain ⟨y, -, hy⟩ := bind_eq_done hx
    exact absurd hy (conclude_ne_done y x)
  obtain ⟨ht₁, hacts⟩ := w.steps_writeContent ht hwrite
  cases x with
  | error e => exact .inl (.append hacts (w.steps_settle ht₁ hconclude))
  | ok _ =>
    obtain ⟨rfl, rfl, rfl⟩ | ⟨answer, t₂, rest, rfl, hanswer, hsettle⟩ := hconclude.of_ask
    · exact .inl (.append hacts ⟨ht₁, by simp, by rintro x ⟨⟩⟩)
    cases answer with
    | ok _ =>
      -- the move succeeded, so nothing is left to do
      obtain ⟨rfl, rfl, rfl⟩ := hsettle.of_done
      refine .inr ⟨rfl, by simp [moved], t₁, ht₁, ?_, hanswer⟩
      exact ((w.safe_writeContent a z ht).post_of_steps hwrite).2.1 rfl
    | error fault =>
      obtain rfl := hrename hanswer
      have hfailed : moved p ∉ [.exchange (.change (.rename p.unfinished p)) (.error fault)] := by
        simp [moved]
      exact .inl (.append hacts (.append hfailed (w.steps_settle ht₁ hsettle)))

end Writable

end

/-! ### Writing to a tree of files -/

section

variable {mayFail : FileChange → Prop} {t t' : FileTree}

theorem AtUnfinished.changesOnly {q : FileRequest} {answer : q.Answer} {t₁ t₂ : FileTree}
    (hq : AtUnfinished p q) (h : ChangesOnly (fun l => t.locate p.unfinished = .ok l) t t₁)
    (hanswer : t₁.Answers mayFail q answer t₂) :
    ChangesOnly (fun l => t.locate p.unfinished = .ok l) t t₂ := by
  obtain ⟨c, rfl, hc⟩ := hq
  refine h.trans ((hanswer.changesOnly p.isNamed_unfinished hc).mono fun l hl => ?_)
  exact (h.locate_iff p.isNamed_unfinished).mp hl

/-- Every operation on a file that is there can be done. -/
theorem exists_apply {c : FileChange} {content : List UInt8} (hr : r.IsNamed)
    (hc : c.path? = some r) (h : t.read r = .content content) : ∃ t', t.apply c = .ok t' := by
  obtain ⟨l, hfind⟩ := read_eq_content.mp h
  obtain ⟨hl, hn⟩ := locate_of_find hfind
  cases c with
  | rename source target => cases hc
  | create q =>
    obtain rfl := Option.some.inj hc
    exact ⟨_, create_named hr hl (by simp [hn])⟩
  | append q bytes =>
    obtain rfl := Option.some.inj hc
    exact ⟨_, append_named hr hl hn⟩
  | remove q =>
    obtain rfl := Option.some.inj hc
    exact ⟨_, remove_named hr hl hn⟩
  | flush q | sync q =>
    obtain rfl := Option.some.inj hc
    exact ⟨t, by simp only [apply, hfind]; rfl⟩

/-- Nothing but the unfinished file of a path has changed. -/
def OnlyUnfinished (p : Path) (t : FileTree) : FileTree → Prop :=
  ChangesOnly (fun l => t.locate p.unfinished = .ok l) t

/-- The unfinished file of a path holds a content. -/
def Pending (p : Path) (t : FileTree) (content : List UInt8) : Prop :=
  t.read p.unfinished = .content content

/-- In a tree of files, unfinished files are writable. -/
theorem writable_unfinished (mayFail : FileChange → Prop) (p : Path) (t : FileTree) :
    Writable (Answers mayFail) p.unfinished (OnlyUnfinished p t) (Pending p) mayFail where
  keeps hc h hanswer := AtUnfinished.changesOnly ⟨_, rfl, hc⟩ h hanswer
  create _ hanswer := read_create p.isNamed_unfinished hanswer.apply_of_ok
  append {content before t₁ t₂} _ h hanswer := by
    obtain ⟨t₃, happend, h₃⟩ : ∃ t₃, t₁.append p.unfinished content = .ok t₃ ∧ _ :=
      append_of_read p.isNamed_unfinished h
    obtain rfl : t₃ = t₂ := Except.ok.inj (happend.symm.trans hanswer.apply_of_ok)
    exact h₃
  settled {c content t₁ t₂} hc _ h hanswer := by
    obtain rfl : t₁ = t₂ := by
      rcases hc with rfl | rfl <;> exact eq_of_map_find hanswer.apply_of_ok
    exact h
  failed hc _ h hanswer := by
    obtain ⟨t₁, happly⟩ := exists_apply p.isNamed_unfinished hc h
    obtain ⟨-, hrefused⟩ | hmay := hanswer.error_cases
    · rw [happly] at hrefused
      cases hrefused
    · exact hmay

theorem steps_writeTo {s' : Script (Except ArtifactError Unit)}
    (h : Steps (Answers mayFail) (a.writeTo z p).run t acts s' t') :
    Unmoved (Answers mayFail) (OnlyUnfinished p t) p acts s' t' ∨
      Moved (Answers mayFail) (OnlyUnfinished p t) (Pending p) a z p acts s' t' := by
  refine (writable_unfinished mayFail p t).steps_writeTo (fun hanswer => ?_) (.refl _ t) h
  exact hanswer.eq_of_error (by rintro d ⟨⟩)

/-! ### Writes that nothing disturbs -/

/-- Where nothing stands at the target, a complete file can be moved there. -/
theorem rename_of_pending {t₁ : FileTree} {fault : FileFault} {content : List UInt8}
    (hp : p.IsNamed) (hfree : t.find p = .error fault) (hchange : OnlyUnfinished p t t₁)
    (hpending : Pending p t₁ content) : ∃ t₂, t₁.rename p.unfinished p = .ok t₂ := by
  obtain ⟨old, hfind⟩ := read_eq_content.mp hpending
  obtain ⟨hold, hcontent⟩ := locate_of_find hfind
  obtain ⟨new, hnew⟩ := locate_of_locate_append (by decide) hp (by decide) hold
  have hlocate := (hchange.locate_iff hp).mp hnew
  have hnone : t₁.node? new ≠ some .directory := by
    intro hd
    rw [hchange.directories] at hd
    rw [find_named hp hlocate hd] at hfree
    cases hfree
  exact ⟨_, rename_named p.isNamed_unfinished hp hold hnew hcontent hnone⟩

/-- Where nothing stands at the target and no operation fails for other reasons, writing fails only
if the unfinished file cannot be created, and then changes nothing. -/
theorem safe_writeTo_never {fault : FileFault} (a : Artifact) (z : Gzip.Compressor)
    (hp : p.IsNamed) (hfree : t.find p = .error fault) :
    (a.writeTo z p).run.Safe (Answers fun _ => False) .alone
      (fun x t' => ∀ e, x = .error e → t' = t ∧ ∃ f, t.create p.unfinished = .error f) t := by
  rw [run_writeTo]
  refine ((writable_unfinished (fun _ => False) p t).safe_writeContent a z (.refl _ t)).bind
    fun x t₁ h => ?_
  obtain ⟨hchange, hok, herror⟩ := h
  cases x with
  | error e =>
    obtain ⟨f, hcreate⟩ | ⟨-, -, hnever⟩ := herror e rfl
    · obtain ⟨rfl, hf⟩ : t₁ = t ∧ t.create p.unfinished = .error f :=
        hcreate.error_cases.resolve_right id
      -- nothing was created, so there is nothing to remove
      obtain ⟨f', hf'⟩ : ∃ f', t₁.apply (.remove p.unfinished) = .error f' :=
        remove_error_of_create p.isNamed_unfinished hf
      rintro _ rfl answer t₂ hanswer
      obtain ⟨-, rfl⟩ := hanswer.eq_of_never
      refine ⟨trivial, ?_⟩
      rintro _ rfl e' -
      rw [answer_change_error hf']
      exact ⟨rfl, f, hf⟩
    · exact hnever.elim
  | ok _ =>
    obtain ⟨t₂, hrename⟩ : ∃ t₂, t₁.apply (.rename p.unfinished p) = .ok t₂ :=
      rename_of_pending hp hfree hchange (hok rfl)
    rintro _ rfl answer t₃ hanswer
    obtain ⟨rfl, rfl⟩ := hanswer.eq_of_never
    refine ⟨trivial, ?_⟩
    rw [answer_change_ok hrename]
    rintro _ rfl e ⟨⟩

theorem run_writeTo_ok {fault : FileFault} {t₁ : FileTree} (a : Artifact) (z : Gzip.Compressor)
    (hp : p.IsNamed) (hfree : t.find p = .error fault)
    (hcreate : t.create p.unfinished = .ok t₁) :
    ∃ t', ((a.writeTo z p).run.run t).value = (.ok (), t') := by
  have hnever := (a.safe_writeTo_never z hp hfree).post_run
  generalize ((a.writeTo z p).run.run t).value = outcome at hnever
  obtain ⟨x, t'⟩ := outcome
  cases x with
  | ok _ => exact ⟨t', rfl⟩
  | error e =>
    obtain ⟨-, f, hf⟩ := hnever e rfl
    rw [hcreate] at hf
    cases hf

/-! ### Reading back what was written -/

theorem goal_ne_unfinished {l : Location} (h : t.locate p.unfinished = .ok l) : t.goal p ≠ l :=
  goal_ne_of_locate_append (by decide) (by decide) h

/-- A write that has succeeded has put the artifact at the target. -/
theorem find_of_steps_writeTo
    (h : Steps (Answers mayFail) (a.writeTo z p).run t acts (.done (.ok ())) t') :
    ∃ l, t.locate p = .ok l ∧ t'.find p = .ok (l, .file (z.stream a.compactText)) := by
  obtain hun | ⟨-, -, t₁, hchange, hpending, hrename⟩ := steps_writeTo h
  · obtain ⟨⟨e, he⟩, -⟩ := hun.gaveUp _ rfl
    cases he
  · obtain ⟨hp, l, hl, hfind, -⟩ := find_of_rename p.isNamed_unfinished
      (fun l hl => goal_ne_unfinished hl) hpending hrename.apply_of_ok
    exact ⟨l, (hchange.locate_iff hp).mp hl, hfind⟩

theorem find_of_writeTo (h : ((a.writeTo z p).run.run t).value = (.ok (), t')) :
    ∃ l, t.locate p = .ok l ∧ t'.find p = .ok (l, .file (z.stream a.compactText)) := by
  obtain ⟨acts, hsteps⟩ : ∃ acts, Steps (Answers fun _ => False) (a.writeTo z p).run t acts _ _ :=
    steps_run _ t
  rw [h] at hsteps
  exact find_of_steps_writeTo hsteps

theorem run_readFrom {bytes : List UInt8} (h : t.read p = .content bytes)
    (ha : ofStream bytes = .ok a) : (readFrom p).run.run t = pure (.ok a, t) := by
  have hrun : (Script.read p).run t = pure (.content bytes, t) := by
    rw [← h]
    rfl
  simp [readFrom, hrun, ha, ExceptT.run_bind, ofExcept]

theorem run_readFrom_of_find {l : Location}
    (h : t.find p = .ok (l, .file (z.stream a.compactText))) :
    (readFrom p).run.run t = pure (.ok a, t) :=
  run_readFrom (read_eq_content.mpr ⟨l, h⟩) (a.ofStream_stream z)

end

end Artifact

end SymbolicPaths
