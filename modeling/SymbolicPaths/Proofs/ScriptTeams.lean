import Mathlib.Data.List.Forall2
import Mathlib.Logic.Relation
import SymbolicPaths.Proofs.ScriptRuns

/-!
# Scripts that share a tree

Several scripts take turns on one tree, in any order (`TeamSteps`). Each is argued about by itself,
with a `Pact` that says what it relies on while the others are at work and what each of its own
requests guarantees. A script is `Safe` if it keeps its pact. Where what one guarantees is what the
others rely on, all of them keep their pacts in every order of their steps (`TeamSafe.steps`). A
script that is only told about what others leave alone does not notice them (`Safe.of_local`).

A script on its own is a team of one: it relies on nobody changing anything, and `Safe` then says
what holds when it has come to its end (`Safe.post_of_steps`, `Safe.post_run`).
-/

namespace SymbolicPaths.Script

variable {α β ε τ : Type} {env : Environment τ} {s s' : Script α} {f : α → Script β} {t t' : τ}
  {acts : List Act}

/-! ### Scripts among others -/

/-- What a script relies on while others are at work, and what it guarantees to them. -/
structure Pact (τ : Type) where
  /-- What others may do between two requests. -/
  rely : τ → τ → Prop
  /-- What a request does. -/
  guarantee : τ → τ → Prop
  rely_refl : ∀ t, rely t t
  rely_trans : ∀ {t₁ t₂ t₃}, rely t₁ t₂ → rely t₂ t₃ → rely t₁ t₃
  guarantee_refl : ∀ t, guarantee t t

/-- The pact of a script that nobody interferes with. -/
def Pact.alone : Pact τ where
  rely := Eq
  guarantee _ _ := True
  rely_refl _ := rfl
  rely_trans := Eq.trans
  guarantee_refl _ := trivial

/-- A script keeps a pact from some point on, and `post` holds whenever it has come to its end. -/
def Safe (env : Environment τ) (pact : Pact τ) (post : α → τ → Prop) : Script α → τ → Prop
  | .done a, t => ∀ t', pact.rely t t' → post a t'
  | .note _ s, t => s.Safe env pact post t
  | .ask r k, t => ∀ t₁, pact.rely t t₁ → ∀ answer t₂, env t₁ r answer t₂ →
      pact.guarantee t₁ t₂ ∧ (k answer).Safe env pact post t₂

namespace Safe

variable {pact : Pact τ} {post : α → τ → Prop} {post' : β → τ → Prop}

/-- Others may be at work at any time. -/
theorem stable (h : s.Safe env pact post t) (hrely : pact.rely t t') :
    s.Safe env pact post t' := by
  induction s with
  | done a => exact fun t₁ h₁ => h t₁ (pact.rely_trans hrely h₁)
  | note e s ih => exact ih h
  | ask r k ih => exact fun t₁ h₁ => h t₁ (pact.rely_trans hrely h₁)

theorem bind (h : s.Safe env pact post t)
    (hf : ∀ a t', post a t' → (f a).Safe env pact post' t') :
    (s >>= f).Safe env pact post' t := by
  induction s generalizing t with
  | done a => exact hf a t (h t (pact.rely_refl t))
  | note e s ih => exact ih h
  | ask r k ih =>
    intro t₁ hrely answer t₂ hanswer
    obtain ⟨hguarantee, hk⟩ := h t₁ hrely answer t₂ hanswer
    exact ⟨hguarantee, ih answer hk⟩

theorem bindExcept {x : ExceptT ε Script α} {g : α → ExceptT ε Script β}
    {post : Except ε α → τ → Prop} {post' : Except ε β → τ → Prop}
    (h : x.run.Safe env pact post t)
    (hok : ∀ a t', post (.ok a) t' → (g a).run.Safe env pact post' t')
    (herror : ∀ e t', post (.error e) t' → (Script.done (.error e)).Safe env pact post' t') :
    (x >>= g).run.Safe env pact post' t := by
  rw [ExceptT.run_bind]
  refine h.bind fun a t' ha => ?_
  cases a with
  | ok a => exact hok a t' ha
  | error e => exact herror e t' ha

theorem adapt {ε' : Type} {x : ExceptT ε Script α} {g : ε → ε'} {post : Except ε' α → τ → Prop}
    (h : x.run.Safe env pact (fun a t => ∀ t', pact.rely t t' → post (a.mapError g) t') t) :
    (x.adapt g).run.Safe env pact post t := by
  change (Except.mapError g <$> x.run).Safe env pact post t
  rw [map_eq_pure_bind]
  exact h.bind fun a t' ha => ha

theorem mono {pact' : Pact τ} {post' : α → τ → Prop} (h : s.Safe env pact post t)
    (hrely : ∀ t t', pact'.rely t t' → pact.rely t t')
    (hguarantee : ∀ t t', pact.guarantee t t' → pact'.guarantee t t')
    (hpost : ∀ a t, post a t → post' a t) : s.Safe env pact' post' t := by
  induction s generalizing t with
  | done a => exact fun t' ht' => hpost a t' (h t' (hrely t t' ht'))
  | note e s ih => exact ih h
  | ask r k ih =>
    intro t₁ ht₁ answer t₂ hanswer
    obtain ⟨hg, hk⟩ := h t₁ (hrely t t₁ ht₁) answer t₂ hanswer
    exact ⟨hguarantee t₁ t₂ hg, ih answer hk⟩

/-- A script keeps a pact that each of its requests keeps. -/
theorem of_asksOnly {P : FileRequest → Prop} (hs : s.AsksOnly P) {I : τ → Prop}
    (hrely : ∀ t t', I t → pact.rely t t' → I t')
    (hI : ∀ r answer t t', P r → I t → env t r answer t' → pact.guarantee t t' ∧ I t')
    (ht : I t) : s.Safe env pact (fun _ => I) t := by
  induction s generalizing t with
  | done a => exact fun t' ht' => hrely t t' ht ht'
  | note e s ih => exact ih hs ht
  | ask r k ih =>
    intro t₁ ht₁ answer t₂ hanswer
    obtain ⟨hg, hend⟩ := hI r answer t₁ t₂ hs.1 (hrely t t₁ ht ht₁) hanswer
    exact ⟨hg, ih answer (hs.2 answer) hend⟩

/-- A step keeps the pact. -/
theorem step {act : Act} (h : s.Safe env pact post t) (hstep : Step env s t act s' t') :
    pact.guarantee t t' ∧ s'.Safe env pact post t' := by
  cases hstep with
  | note e s t => exact ⟨pact.guarantee_refl t, h⟩
  | ask hanswer => exact h _ (pact.rely_refl _) _ _ hanswer

theorem steps (h : s.Safe env pact post t) (hsteps : Steps env s t acts s' t') :
    s'.Safe env pact post t' := by
  induction hsteps with
  | refl => exact h
  | head hstep _ ih => exact ih (h.step hstep).2

theorem post_of_steps {a : α} (h : s.Safe env pact post t)
    (hsteps : Steps env s t acts (.done a) t') : post a t' :=
  h.steps hsteps t' (pact.rely_refl t')

section

variable {pact : Pact FileTree} {post : α → FileTree → Prop} {t : FileTree}

theorem post_run {mayFail : FileChange → Prop}
    (h : s.Safe (FileTree.Answers mayFail) pact post t) :
    post (s.run t).value.1 (s.run t).value.2 := by
  obtain ⟨acts, hacts⟩ : ∃ acts, Steps (FileTree.Answers mayFail) s t acts _ _ := steps_run s t
  exact h.post_of_steps hacts

/-- A script whose requests only look at what others leave alone goes as if it were on its own. -/
theorem of_local {P : FileRequest → Prop} (hs : s.AsksOnly P) {I : FileTree → Prop}
    (hrely : ∀ t t', I t → pact.rely t t' → I t')
    (hI : ∀ r t, P r → I t → pact.guarantee t (t.answer r).2 ∧ I (t.answer r).2)
    (hlocal : ∀ r t t', P r → I t → pact.rely t t' →
      (t'.answer r).1 = (t.answer r).1 ∧ pact.rely (t.answer r).2 (t'.answer r).2)
    (ht : I t) :
    s.Safe (FileTree.Answers fun _ => False) pact
      (fun a t' => a = (s.run t).value.1 ∧ pact.rely (s.run t).value.2 t') t := by
  induction s generalizing t with
  | done a => exact fun t' ht' => ⟨rfl, ht'⟩
  | note e s ih => exact ih hs ht
  | ask r k ih =>
    intro t₁ ht₁ answer t₂ hanswer
    obtain ⟨rfl, rfl⟩ := hanswer.eq_of_never
    -- the answer is the one it would get alone, and the two trees afterwards differ elsewhere only
    obtain ⟨hanswer, htree⟩ := hlocal r t t₁ hs.1 ht ht₁
    refine ⟨(hI r t₁ hs.1 (hrely t t₁ ht ht₁)).1, ?_⟩
    rw [hanswer]
    exact (ih (t.answer r).1 (hs.2 _) (hI r t hs.1 ht).2).stable htree

end

end Safe

/-! ### Scripts that take turns -/

section

variable {mayFail : FileChange → Prop} {t t' : FileTree}

/-- One of several scripts takes a step. -/
inductive TeamStep (mayFail : FileChange → Prop) :
    List (Script α) → FileTree → List (Script α) → FileTree → Prop
  | first {s s' : Script α} {t t' : FileTree} {act : Act}
    (h : Step (FileTree.Answers mayFail) s t act s' t') (team : List (Script α)) :
    TeamStep mayFail (s :: team) t (s' :: team) t'
  | later {team team' : List (Script α)} {t t' : FileTree} (s : Script α)
    (h : TeamStep mayFail team t team' t') : TeamStep mayFail (s :: team) t (s :: team') t'

/-- Scripts that share a tree, in some order of their steps. -/
def TeamSteps (mayFail : FileChange → Prop) (team : List (Script α)) (t : FileTree)
    (team' : List (Script α)) (t' : FileTree) : Prop :=
  Relation.ReflTransGen (fun c c' => TeamStep mayFail c.1 c.2 c'.1 c'.2) (team, t) (team', t')

theorem TeamStep.length_eq {team team' : List (Script α)} (h : TeamStep mayFail team t team' t') :
    team'.length = team.length := by
  induction h with
  | first => rfl
  | later s _ ih => rw [List.length_cons, List.length_cons, ih]

theorem TeamSteps.length_eq {team team' : List (Script α)}
    (h : TeamSteps mayFail team t team' t') : team'.length = team.length := by
  unfold TeamSteps at h
  generalize hend : (team', t') = finish at h
  induction h generalizing team' t' with
  | refl => rw [(Prod.mk.inj hend).1]
  | tail _ hstep ih =>
    subst hend
    exact hstep.length_eq.trans (ih rfl)

theorem TeamSteps.first (h : Steps (FileTree.Answers mayFail) s t acts s' t')
    (team : List (Script α)) : TeamSteps mayFail (s :: team) t (s' :: team) t' := by
  induction h with
  | refl => exact .refl
  | head hstep _ ih => exact .head (.first hstep team) ih

theorem TeamSteps.later {team team' : List (Script α)} (s : Script α)
    (h : TeamSteps mayFail team t team' t') : TeamSteps mayFail (s :: team) t (s :: team') t' := by
  let extend (c : List (Script α) × FileTree) := (s :: c.1, c.2)
  exact Relation.ReflTransGen.lift extend (fun _ _ hstep => .later s hstep) _ _ h

theorem TeamSteps.prepend {team team' : List (Script α)} (front : List (Script α))
    (h : TeamSteps mayFail team t team' t') :
    TeamSteps mayFail (front ++ team) t (front ++ team') t' := by
  induction front with
  | nil => exact h
  | cons s rest ih => exact ih.later s

theorem TeamStep.append {team team' : List (Script α)} (h : TeamStep mayFail team t team' t')
    (rest : List (Script α)) : TeamStep mayFail (team ++ rest) t (team' ++ rest) t' := by
  induction h with
  | first hs team => exact .first hs (team ++ rest)
  | later s _ ih => exact .later s ih

theorem TeamSteps.append {team team' : List (Script α)} (h : TeamSteps mayFail team t team' t')
    (rest : List (Script α)) : TeamSteps mayFail (team ++ rest) t (team' ++ rest) t' := by
  let extend (c : List (Script α) × FileTree) := (c.1 ++ rest, c.2)
  exact Relation.ReflTransGen.lift extend (fun _ _ hstep => hstep.append rest) _ _ h

/-- Running scripts one after the other is one of the orders of their steps. -/
theorem teamSteps_mapM {ι : Type} (f : ι → Script α) (xs : List ι) (t : FileTree) :
    ∃ results t', TeamSteps mayFail (xs.map f) t (results.map .done) t' ∧
      ((xs.mapM fun x => do return (x, ← f x) : Script (List (ι × α))).run t).value =
        (xs.zip results, t') := by
  induction xs generalizing t with
  | nil => exact ⟨[], t, .refl, rfl⟩
  | cons x rest ih =>
    obtain ⟨acts, hx⟩ : ∃ acts, Steps (FileTree.Answers mayFail) (f x) t acts _ _ :=
      steps_run (f x) t
    obtain ⟨results, t', hrest, hvalue⟩ := ih ((f x).run t).value.2
    refine ⟨((f x).run t).value.1 :: results, t', (TeamSteps.first hx _).trans (hrest.later _), ?_⟩
    rw [List.mapM_cons]
    simp only [pure_eq] at hvalue ⊢
    simp [hvalue]

section Team

variable {ι : Type} {pact : ι → Pact FileTree} {post : ι → α → FileTree → Prop} {members : List ι}
  {team team' : List (Script α)}

/-- Scripts each of which keeps a pact of its own. -/
def TeamSafe (mayFail : FileChange → Prop) (pact : ι → Pact FileTree)
    (post : ι → α → FileTree → Prop) (members : List ι) (team : List (Script α)) (t : FileTree) :
    Prop :=
  List.Forall₂ (fun i s => s.Safe (FileTree.Answers mayFail) (pact i) (post i) t) members team

theorem TeamSafe.post_of_done {results : List α}
    (h : TeamSafe mayFail pact post members (results.map .done) t) :
    List.Forall₂ (fun i a => post i a t) members results :=
  (List.forall₂_map_right_iff.mp h).imp fun i _ hi => hi t ((pact i).rely_refl t)

/-- Two members of a team can rely on each other. -/
def Pact.Fits (p q : Pact FileTree) : Prop :=
  (∀ t t', p.guarantee t t' → q.rely t t') ∧ ∀ t t', q.guarantee t t' → p.rely t t'

theorem TeamSafe.step (hfits : members.Pairwise fun i j => (pact i).Fits (pact j))
    (h : TeamSafe mayFail pact post members team t) (hstep : TeamStep mayFail team t team' t') :
    TeamSafe mayFail pact post members team' t' ∧ ∃ i ∈ members, (pact i).guarantee t t' := by
  unfold TeamSafe at h ⊢
  induction hstep generalizing members with
  | first hs team =>
    cases h with
    | @cons i _ rest _ hsafe hteam =>
      obtain ⟨hi, hrest⟩ := List.pairwise_cons.mp hfits
      obtain ⟨hguarantee, hs'⟩ := hsafe.step hs
      -- all others rely on what the first one guarantees
      have hstable := (List.forall₂_and_left rest _).mpr ⟨hi, hteam⟩
      refine ⟨.cons hs' (hstable.imp fun j s hj => ?_), i, List.mem_cons_self, hguarantee⟩
      exact hj.2.stable (hj.1.1 _ _ hguarantee)
  | later s hstep ih =>
    cases h with
    | @cons i _ rest _ hsafe hteam =>
      obtain ⟨hi, hrest⟩ := List.pairwise_cons.mp hfits
      -- the first one relies on what the one that takes the step guarantees
      obtain ⟨hteam', j, hj, hguarantee⟩ := ih hrest hteam
      refine ⟨.cons (hsafe.stable ?_) hteam', j, List.mem_cons_of_mem i hj, hguarantee⟩
      exact (hi j hj).2 _ _ hguarantee

/-- **Scripts that can rely on each other keep their pacts in every order of their steps.** -/
theorem TeamSafe.steps (hfits : members.Pairwise fun i j => (pact i).Fits (pact j))
    (h : TeamSafe mayFail pact post members team t) (hsteps : TeamSteps mayFail team t team' t') :
    TeamSafe mayFail pact post members team' t' ∧
      Relation.ReflTransGen (fun t₁ t₂ => ∃ i ∈ members, (pact i).guarantee t₁ t₂) t t' := by
  unfold TeamSteps at hsteps
  generalize hstart : (team, t) = start at hsteps
  generalize hend : (team', t') = finish at hsteps
  induction hsteps generalizing team' t' with
  | refl =>
    obtain ⟨rfl, rfl⟩ := Prod.mk.inj (hstart.trans hend.symm)
    exact ⟨h, .refl⟩
  | @tail middle _ _ hstep ih =>
    obtain ⟨team₁, t₁⟩ := middle
    subst hend
    obtain ⟨hsafe, hpath⟩ := ih rfl
    obtain ⟨hsafe', hguarantee⟩ := hsafe.step hfits hstep
    exact ⟨hsafe', hpath.tail hguarantee⟩

end Team

end

end SymbolicPaths.Script
