import SymbolicPaths.Proofs.FileTreeLaws

/-!
# Ways for a script to go

What a script does depends on the answers it gets. An `Environment` says which answers something can
give to a request, and what becomes of it. A tree of files answers in one way, unless the request is
a change that may fail: then the answer may be an error although nothing stands in the way, and a
part of what was to be written may have been written (`FileTree.Answers`).

`Script.Steps` are the ways for a script to go under such answers. They stop anywhere, so what holds
after any steps holds at every point between two operations. Where each request is answered by a
function, the script has one way to its end (`steps_runBy`); its run on a tree of files is an
instance (`steps_run`).

What a script asks for is bounded by a predicate that does not depend on the answers (`AsksOnly`). A
property that survives each such request survives the script (`AsksOnly.steps`).
-/

namespace SymbolicPaths

/-- The answers that something can give to requests, and what becomes of it. -/
abbrev Environment (τ : Type) :=
  τ → (r : FileRequest) → r.Answer → τ → Prop

/-! ### Operations that fail -/

/-- What an operation that fails may have done all the same. A file is moved or removed in one go or
not at all. -/
inductive FileChange.Remnant : FileChange → FileChange → Prop
  | create (p : Path) : Remnant (.create p) (.create p)
  | append (p : Path) (content bytes : List UInt8) : Remnant (.append p content) (.append p bytes)
  | flush (p : Path) (bytes : List UInt8) : Remnant (.flush p) (.append p bytes)
  | sync (p : Path) (bytes : List UInt8) : Remnant (.sync p) (.append p bytes)

theorem FileChange.Remnant.path?_eq {c d : FileChange} (h : c.Remnant d) : d.path? = c.path? := by
  cases h <;> rfl

/-- The answers a tree can give to a request, and the tree afterwards. Operations of some kinds may
fail even if nothing in the tree stands in their way. -/
inductive FileTree.Answers (mayFail : FileChange → Prop) (t : FileTree) :
    (r : FileRequest) → r.Answer → FileTree → Prop
  | given (r : FileRequest) : Answers mayFail t r (t.answer r).1 (t.answer r).2
  | failed {c : FileChange} (hc : mayFail c) (fault : FileFault) :
    Answers mayFail t (.change c) (.error fault) t
  | torn {c d : FileChange} {t' : FileTree} (hc : mayFail c) (hd : c.Remnant d)
    (h : t.apply d = .ok t') (fault : FileFault) : Answers mayFail t (.change c) (.error fault) t'

namespace FileTree

variable {mayFail : FileChange → Prop} {t t' : FileTree} {c : FileChange}

theorem answer_change_ok (h : t.apply c = .ok t') : t.answer (.change c) = (.ok (), t') := by
  simp only [answer, h]

theorem answer_change_error {fault : FileFault} (h : t.apply c = .error fault) :
    t.answer (.change c) = (.error fault, t) := by
  simp only [answer, h]

namespace Answers

theorem eq_of_never {r : FileRequest} {answer : r.Answer}
    (h : t.Answers (fun _ => False) r answer t') :
    answer = (t.answer r).1 ∧ t' = (t.answer r).2 := by
  cases h with
  | given => exact ⟨rfl, rfl⟩
  | failed hc => exact hc.elim
  | torn hc => exact hc.elim

/-- Only changes may fail. -/
theorem eq_of_not_change {r : FileRequest} {answer : r.Answer} (hr : ∀ c, r ≠ .change c)
    (h : t.Answers mayFail r answer t') : answer = (t.answer r).1 ∧ t' = t := by
  cases h with
  | given =>
    refine ⟨rfl, ?_⟩
    cases r with
    | change c => exact absurd rfl (hr c)
    | _ => rfl
  | failed => exact absurd rfl (hr _)
  | torn => exact absurd rfl (hr _)

theorem change_cases {answer : Except FileFault Unit}
    (h : t.Answers mayFail (.change c) answer t') :
    (answer = .ok () ∧ t.apply c = .ok t') ∨
    ∃ fault, answer = .error fault ∧
      ((t' = t ∧ (t.apply c = .error fault ∨ mayFail c)) ∨
        mayFail c ∧ ∃ d, c.Remnant d ∧ t.apply d = .ok t') := by
  cases h with
  | given =>
    cases happly : t.apply c with
    | ok t₁ =>
      rw [answer_change_ok happly]
      exact .inl ⟨rfl, rfl⟩
    | error fault =>
      rw [answer_change_error happly]
      exact .inr ⟨fault, rfl, .inl ⟨rfl, .inl rfl⟩⟩
  | failed hc fault => exact .inr ⟨fault, rfl, .inl ⟨rfl, .inr hc⟩⟩
  | torn hc hd happly fault => exact .inr ⟨fault, rfl, .inr ⟨hc, _, hd, happly⟩⟩

theorem apply_of_ok (h : t.Answers mayFail (.change c) (.ok ()) t') : t.apply c = .ok t' := by
  obtain ⟨-, happly⟩ | ⟨fault, hanswer, -⟩ := h.change_cases
  · exact happly
  · cases hanswer

/-- An operation that fails is refused by the tree, or it may fail. -/
theorem error_cases {fault : FileFault} (h : t.Answers mayFail (.change c) (.error fault) t') :
    (t' = t ∧ t.apply c = .error fault) ∨ mayFail c := by
  obtain ⟨hanswer, -⟩ | ⟨fault', hanswer, ⟨heq, hrefused | hmay⟩ | ⟨hmay, -⟩⟩ := h.change_cases
  · cases hanswer
  · cases hanswer
    exact .inl ⟨heq, hrefused⟩
  · exact .inr hmay
  · exact .inr hmay

/-- An operation that is done in one go and fails has changed nothing. -/
theorem eq_of_error {fault : FileFault} (hc : ∀ d, ¬ c.Remnant d)
    (h : t.Answers mayFail (.change c) (.error fault) t') : t' = t := by
  obtain ⟨hanswer, -⟩ | ⟨-, -, ⟨heq, -⟩ | ⟨-, d, hd, -⟩⟩ := h.change_cases
  · cases hanswer
  · exact heq
  · exact absurd hd (hc d)

/-- Whatever becomes of an operation on a path that ends in a name, nothing changes but the file
there. -/
theorem changesOnly {r : Path} {answer : Except FileFault Unit} (hr : r.IsNamed)
    (hc : c.path? = some r) (h : t.Answers mayFail (.change c) answer t') :
    ChangesOnly (fun l => t.locate r = .ok l) t t' := by
  obtain ⟨-, happly⟩ | ⟨-, -, ⟨rfl, -⟩ | ⟨-, d, hd, happly⟩⟩ := h.change_cases
  · exact apply_changesOnly hr hc happly
  · exact .refl _ _
  · exact apply_changesOnly hr (hd.path?_eq.trans hc) happly

end Answers

end FileTree

/-! ### Steps of a script -/

/-- What a script does in a step. -/
inductive Act where
  | report (event : Event)
  | exchange (request : FileRequest) (answer : request.Answer)

namespace Script

variable {α β ε τ : Type} {env : Environment τ} {s s' : Script α} {f : α → Script β} {t t' : τ}
  {acts : List Act}

/-- A step of a script. -/
inductive Step (env : Environment τ) : Script α → τ → Act → Script α → τ → Prop
  | note (e : Event) (s : Script α) (t : τ) : Step env (.note e s) t (.report e) s t
  | ask {r : FileRequest} {k : r.Answer → Script α} {t t' : τ} {answer : r.Answer}
    (h : env t r answer t') : Step env (.ask r k) t (.exchange r answer) (k answer) t'

/-- Some steps of a script, one after the other. It need not come to an end. -/
inductive Steps (env : Environment τ) : Script α → τ → List Act → Script α → τ → Prop
  | refl (s : Script α) (t : τ) : Steps env s t [] s t
  | head {s s₁ s' : Script α} {t t₁ t' : τ} {act : Act} {acts : List Act}
    (h : Step env s t act s₁ t₁) (h' : Steps env s₁ t₁ acts s' t') :
    Steps env s t (act :: acts) s' t'

theorem bind_eq_done {b : β} (h : s >>= f = .done b) : ∃ a, s = .done a ∧ f a = .done b := by
  cases s with
  | done a => exact ⟨a, rfl, h⟩
  | note e s => cases h
  | ask r k => cases h

namespace Steps

theorem of_done {a : α} (h : Steps env (.done a) t acts s' t') :
    acts = [] ∧ s' = .done a ∧ t' = t := by
  cases h with
  | refl => exact ⟨rfl, rfl, rfl⟩
  | head h _ => cases h

theorem of_note {e : Event} (h : Steps env (.note e s) t acts s' t') :
    (acts = [] ∧ s' = .note e s ∧ t' = t) ∨
      ∃ rest, acts = .report e :: rest ∧ Steps env s t rest s' t' := by
  cases h with
  | refl => exact .inl ⟨rfl, rfl, rfl⟩
  | head h h' =>
    cases h
    exact .inr ⟨_, rfl, h'⟩

theorem of_ask {r : FileRequest} {k : r.Answer → Script α}
    (h : Steps env (.ask r k) t acts s' t') :
    (acts = [] ∧ s' = .ask r k ∧ t' = t) ∨
      ∃ answer t₁ rest, acts = .exchange r answer :: rest ∧ env t r answer t₁ ∧
        Steps env (k answer) t₁ rest s' t' := by
  cases h with
  | refl => exact .inl ⟨rfl, rfl, rfl⟩
  | head h h' =>
    cases h with
    | ask h => exact .inr ⟨_, _, _, rfl, h, h'⟩

/-- Steps of a sequence are steps of its first part, or that part has come to its end. -/
theorem of_bind {s' : Script β} (h : Steps env (s >>= f) t acts s' t') :
    (∃ s₁, s' = s₁ >>= f ∧ Steps env s t acts s₁ t') ∨
      ∃ acts₁ a t₁ acts₂, acts = acts₁ ++ acts₂ ∧ Steps env s t acts₁ (.done a) t₁ ∧
        Steps env (f a) t₁ acts₂ s' t' := by
  -- as long as the first part is not done, a step of the sequence is one of it
  induction s generalizing t acts with
  | done a => exact .inr ⟨[], a, t, acts, rfl, .refl _ _, h⟩
  | note e s ih =>
    rw [note_bind] at h
    obtain ⟨rfl, rfl, rfl⟩ | ⟨rest, rfl, hrest⟩ := h.of_note
    · exact .inl ⟨.note e s, rfl, .refl _ _⟩
    · obtain ⟨s₁, rfl, hs₁⟩ | ⟨acts₁, a, t₁, acts₂, rfl, hs, hf⟩ := ih hrest
      · exact .inl ⟨s₁, rfl, .head (.note e s t) hs₁⟩
      · exact .inr ⟨_ :: acts₁, a, t₁, acts₂, rfl, .head (.note e s t) hs, hf⟩
  | ask r k ih =>
    rw [ask_bind] at h
    obtain ⟨rfl, rfl, rfl⟩ | ⟨answer, t₀, rest, rfl, hanswer, hrest⟩ := h.of_ask
    · exact .inl ⟨.ask r k, rfl, .refl _ _⟩
    · obtain ⟨s₁, rfl, hs₁⟩ | ⟨acts₁, a, t₁, acts₂, rfl, hs, hf⟩ := ih answer hrest
      · exact .inl ⟨s₁, rfl, .head (.ask hanswer) hs₁⟩
      · exact .inr ⟨_ :: acts₁, a, t₁, acts₂, rfl, .head (.ask hanswer) hs, hf⟩

/-- A sequence that has come to its end has gone through its first part. -/
theorem of_bind_done {b : β} (h : Steps env (s >>= f) t acts (.done b) t') :
    ∃ a t₁ acts₁ acts₂, acts = acts₁ ++ acts₂ ∧ Steps env s t acts₁ (.done a) t₁ ∧
      Steps env (f a) t₁ acts₂ (.done b) t' := by
  obtain ⟨s₁, hs₁, hsteps⟩ | ⟨acts₁, a, t₁, acts₂, hacts, hs, hf⟩ := h.of_bind
  · obtain ⟨a, rfl, ha⟩ := bind_eq_done hs₁.symm
    refine ⟨a, t', acts, [], (List.append_nil acts).symm, hsteps, ?_⟩
    rw [ha]
    exact .refl _ _
  · exact ⟨a, t₁, acts₁, acts₂, hacts, hs, hf⟩

theorem of_bindExcept_done {x : ExceptT ε Script α} {g : α → ExceptT ε Script β} {b : Except ε β}
    (h : Steps env (x >>= g).run t acts (.done b) t') :
    (∃ e, b = .error e ∧ Steps env x.run t acts (.done (.error e)) t') ∨
      ∃ a t₁ acts₁ acts₂, acts = acts₁ ++ acts₂ ∧ Steps env x.run t acts₁ (.done (.ok a)) t₁ ∧
        Steps env (g a).run t₁ acts₂ (.done b) t' := by
  rw [ExceptT.run_bind] at h
  obtain ⟨a, t₁, acts₁, acts₂, rfl, hx, hg⟩ := h.of_bind_done
  cases a with
  | ok a => exact .inr ⟨a, t₁, acts₁, acts₂, rfl, hx, hg⟩
  | error e =>
    obtain ⟨rfl, hb, rfl⟩ := hg.of_done
    rw [List.append_nil]
    exact .inl ⟨e, Script.done.inj hb, hx⟩

theorem of_adapt_done {ε' : Type} {x : ExceptT ε Script α} {g : ε → ε'} {b : Except ε' α}
    (h : Steps env (x.adapt g).run t acts (.done b) t') :
    ∃ a, b = a.mapError g ∧ Steps env x.run t acts (.done a) t' := by
  change Steps env (Except.mapError g <$> x.run) t acts (.done b) t' at h
  rw [map_eq_pure_bind] at h
  obtain ⟨a, t₁, acts₁, acts₂, rfl, hx, hdone⟩ := h.of_bind_done
  obtain ⟨rfl, hb, rfl⟩ := hdone.of_done
  rw [List.append_nil]
  exact ⟨a, Script.done.inj hb, hx⟩

end Steps

/-- The run of a script whose requests are answered by a function: what it does, its value, and what
is left. -/
def runBy (respond : τ → (r : FileRequest) → r.Answer × τ) : Script α → τ → List Act × α × τ
  | .done a, t => ([], a, t)
  | .note e s, t =>
    let (acts, result) := s.runBy respond t
    (.report e :: acts, result)
  | .ask r k, t =>
    let (acts, result) := (k (respond t r).1).runBy respond (respond t r).2
    (.exchange r (respond t r).1 :: acts, result)

theorem runBy_answer (s : Script α) (t : FileTree) :
    (s.runBy FileTree.answer t).2 = (s.run t).value := by
  induction s generalizing t with
  | done a => rfl
  | note e s ih => exact ih t
  | ask r k ih => exact ih _ _

/-! ### What a script asks for -/

/-- Whether a script makes requests of one kind only, whatever the answers are. -/
def AsksOnly (P : FileRequest → Prop) : Script α → Prop
  | .done _ => True
  | .note _ s => s.AsksOnly P
  | .ask r k => P r ∧ ∀ answer, (k answer).AsksOnly P

namespace AsksOnly

variable {P P' : FileRequest → Prop}

theorem bind (hs : s.AsksOnly P) (hf : ∀ a, (f a).AsksOnly P) : (s >>= f).AsksOnly P := by
  induction s with
  | done a => exact hf a
  | note e s ih => exact ih hs
  | ask r k ih => exact ⟨hs.1, fun answer => ih answer (hs.2 answer)⟩

theorem anything (s : Script α) : s.AsksOnly fun _ => True := by
  induction s with
  | done a => trivial
  | note e s ih => exact ih
  | ask r k ih => exact ⟨trivial, ih⟩

theorem mono (hs : s.AsksOnly P) (hP : ∀ r, P r → P' r) : s.AsksOnly P' := by
  induction s with
  | done a => trivial
  | note e s ih => exact ih hs
  | ask r k ih => exact ⟨hP r hs.1, fun answer => ih answer (hs.2 answer)⟩

theorem ofJournaled (x : Journaled α) : (ofJournaled x).AsksOnly P := by
  unfold Script.ofJournaled
  induction x.events with
  | nil => trivial
  | cons e events ih => exact ih

theorem bindExcept {x : ExceptT ε Script α} {g : α → ExceptT ε Script β} (hx : x.run.AsksOnly P)
    (hg : ∀ a, (g a).run.AsksOnly P) : (x >>= g).run.AsksOnly P := by
  rw [ExceptT.run_bind]
  refine hx.bind fun a => ?_
  cases a with
  | ok a => exact hg a
  | error e => trivial

theorem adapt {ε' : Type} {x : ExceptT ε Script α} {g : ε → ε'} (hx : x.run.AsksOnly P) :
    (x.adapt g).run.AsksOnly P := by
  change (Except.mapError g <$> x.run).AsksOnly P
  rw [map_eq_pure_bind]
  exact hx.bind fun _ => trivial

/-- What survives each request of a kind holds after any steps. -/
theorem steps (hs : s.AsksOnly P) {I : τ → Prop}
    (hI : ∀ r answer t t', P r → I t → env t r answer t' → I t')
    (h : Steps env s t acts s' t') (ht : I t) :
    I t' ∧ ∀ r answer, .exchange r answer ∈ acts → P r := by
  induction h with
  | refl => exact ⟨ht, by simp⟩
  | head hstep _ ih =>
    cases hstep with
    | note e s t =>
      obtain ⟨hend, hacts⟩ := ih hs ht
      refine ⟨hend, fun r answer hmem => ?_⟩
      rcases List.mem_cons.mp hmem with heq | hmem
      · cases heq
      · exact hacts r answer hmem
    | ask hanswer =>
      obtain ⟨hend, hacts⟩ := ih (hs.2 _) (hI _ _ _ _ hs.1 ht hanswer)
      refine ⟨hend, fun r answer hmem => ?_⟩
      rcases List.mem_cons.mp hmem with heq | hmem
      · cases heq
        exact hs.1
      · exact hacts r answer hmem

end AsksOnly

/-- A script whose requests are answered by a function has one way to its end. -/
theorem steps_runBy {P : FileRequest → Prop} {respond : τ → (r : FileRequest) → r.Answer × τ}
    (hs : s.AsksOnly P) (h : ∀ t r, P r → env t r (respond t r).1 (respond t r).2) (t : τ) :
    Steps env s t (s.runBy respond t).1 (.done (s.runBy respond t).2.1)
      (s.runBy respond t).2.2 := by
  induction s generalizing t with
  | done a => exact .refl _ _
  | note e s ih => exact .head (.note e s t) (ih hs t)
  | ask r k ih => exact .head (.ask (h t r hs.1)) (ih _ (hs.2 _) _)

/-- The run of a script on a tree is one way for it to go, whatever may fail. -/
theorem steps_run {mayFail : FileChange → Prop} (s : Script α) (t : FileTree) :
    ∃ acts, Steps (FileTree.Answers mayFail) s t acts (.done (s.run t).value.1)
      (s.run t).value.2 := by
  rw [← runBy_answer]
  exact ⟨_, steps_runBy (AsksOnly.anything s) (fun _ r _ => .given r) t⟩

end Script

end SymbolicPaths
