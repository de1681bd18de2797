import Mathlib.Data.List.Forall2
import SymbolicPaths.Journal

/-!
# Outcomes of computations that may fail

The analyses report what they do and may fail. Many statements are about how they end and not about
what they report on the way: `outcome` is the value or the error of a computation, without its
journal. One equation for each operation of the monad carries it through a program.
-/

namespace SymbolicPaths

variable {ε α β : Type}

/-- How a computation ends. -/
def outcome (x : ExceptT ε Journaled α) : Except ε α :=
  x.run.value

@[simp] theorem outcome_pure (a : α) : outcome (pure a : ExceptT ε Journaled α) = .ok a := rfl

@[simp] theorem outcome_throw (e : ε) : outcome (throw e : ExceptT ε Journaled α) = .error e := rfl

@[simp] theorem outcome_liftM (x : Journaled α) :
    outcome (liftM x : ExceptT ε Journaled α) = .ok x.value := rfl

@[simp] theorem outcome_bind (x : ExceptT ε Journaled α) (f : α → ExceptT ε Journaled β) :
    outcome (x >>= f) = outcome x >>= fun a => outcome (f a) := by
  unfold outcome
  rw [ExceptT.run_bind, Journaled.value_bind]
  cases x.run.value <;> rfl

@[simp] theorem outcome_adapt {ε' : Type} (f : ε → ε') (x : ExceptT ε Journaled α) :
    outcome (x.adapt f) = (outcome x).mapError f := rfl

theorem outcome_tryCatch_ok {x : ExceptT ε Journaled α} (handle : ε → ExceptT ε Journaled α) {a : α}
    (h : outcome x = .ok a) : outcome (tryCatch x handle) = .ok a := by
  obtain ⟨result, events⟩ := x
  obtain rfl : result = .ok a := h
  rfl

theorem outcome_tryCatch_error {x : ExceptT ε Journaled α} (handle : ε → ExceptT ε Journaled α)
    {e : ε} (h : outcome x = .error e) : outcome (tryCatch x handle) = outcome (handle e) := by
  obtain ⟨result, events⟩ := x
  obtain rfl : result = .error e := h
  rfl

/-- The outcome of going through a list is the outcome of going through it without a journal. -/
@[simp] theorem outcome_mapM (f : α → ExceptT ε Journaled β) (as : List α) :
    outcome (as.mapM f) = as.mapM fun a => outcome (f a) := by
  induction as with
  | nil => rfl
  | cons a rest ih =>
    simp only [List.mapM_cons, outcome_bind, ih, outcome_pure]
    rfl

@[simp] theorem ok_bind (a : α) (f : α → Except ε β) : (.ok a : Except ε α) >>= f = f a := rfl

/-- A sequence succeeds exactly if both parts do. -/
theorem bind_eq_ok_iff {x : Except ε α} {f : α → Except ε β} {b : β} :
    x >>= f = .ok b ↔ ∃ a, x = .ok a ∧ f a = .ok b := by
  cases x with
  | error e =>
    constructor
    · intro h
      cases h
    · rintro ⟨a, h, -⟩
      cases h
  | ok a =>
    constructor
    · exact fun h => ⟨a, rfl, h⟩
    · rintro ⟨a', h, hb⟩
      cases h
      exact hb

/-- A sequence fails where its first failing part does. -/
theorem bind_eq_error_iff {x : Except ε α} {f : α → Except ε β} {e : ε} :
    x >>= f = .error e ↔ x = .error e ∨ ∃ a, x = .ok a ∧ f a = .error e := by
  cases x with
  | error e' =>
    change Except.error e' = Except.error e ↔ _
    simp
  | ok a =>
    rw [ok_bind]
    simp

@[simp] theorem mapError_eq_ok_iff {ε' : Type} {x : Except ε α} {f : ε → ε'} {a : α} :
    x.mapError f = .ok a ↔ x = .ok a := by
  cases x <;> simp [Except.mapError]

@[simp] theorem mapError_eq_error_iff {ε' : Type} {x : Except ε α} {f : ε → ε'} {e' : ε'} :
    x.mapError f = .error e' ↔ ∃ e, x = .error e ∧ f e = e' := by
  cases x <;> simp [Except.mapError]

/-- Going through a list succeeds exactly if every step does, and gives the results of the steps. -/
theorem mapM_eq_ok_iff {f : α → Except ε β} {as : List α} {bs : List β} :
    as.mapM f = .ok bs ↔ List.Forall₂ (fun a b => f a = .ok b) as bs := by
  induction as generalizing bs with
  | nil =>
    rw [List.mapM_nil, List.forall₂_nil_left_iff]
    exact ⟨fun h => (Except.ok.inj h).symm, fun h => h ▸ rfl⟩
  | cons a rest ih =>
    rw [List.mapM_cons, List.forall₂_cons_left_iff, bind_eq_ok_iff]
    constructor
    · rintro ⟨b, hb, h⟩
      obtain ⟨later, hlater, h⟩ := bind_eq_ok_iff.mp h
      exact ⟨b, later, hb, ih.mp hlater, (Except.ok.inj h).symm⟩
    · rintro ⟨b, later, hb, hlater, rfl⟩
      exact ⟨b, hb, bind_eq_ok_iff.mpr ⟨later, ih.mpr hlater, rfl⟩⟩

/-- Results that belong to the elements of a list one by one can be read off the list. -/
theorem map_eq_of_forall₂ {γ : Type} {r : α → β → Prop} {g : α → γ} {h : β → γ} {as : List α}
    {bs : List β} (has : List.Forall₂ r as bs) (hr : ∀ a b, r a b → h b = g a) :
    bs.map h = as.map g := by
  induction has with
  | nil => rfl
  | cons hab _ ih => rw [List.map_cons, List.map_cons, hr _ _ hab, ih]

theorem exists_mapM_eq_ok_iff {f : α → Except ε β} {as : List α} :
    (∃ bs, as.mapM f = .ok bs) ↔ ∀ a ∈ as, ∃ b, f a = .ok b := by
  simp only [mapM_eq_ok_iff]
  induction as with
  | nil => simp
  | cons a rest ih =>
    rw [List.forall_mem_cons, ← ih]
    constructor
    · rintro ⟨bs, h⟩
      cases h with
      | cons hb hrest => exact ⟨⟨_, hb⟩, _, hrest⟩
    · rintro ⟨⟨b, hb⟩, bs, hbs⟩
      exact ⟨b :: bs, .cons hb hbs⟩

/-- Going through a list fails at the first element where a step fails. -/
theorem mapM_eq_error_iff {f : α → Except ε β} {as : List α} {e : ε} :
    as.mapM f = .error e ↔ ∃ before a after, as = before ++ a :: after ∧
      (∀ b ∈ before, ∃ c, f b = .ok c) ∧ f a = .error e := by
  induction as with
  | nil =>
    constructor
    · intro h
      cases h
    · rintro ⟨before, a, after, h, -⟩
      simp at h
  | cons a rest ih =>
    rw [List.mapM_cons, bind_eq_error_iff]
    constructor
    · rintro (h | ⟨b, hb, h⟩)
      · exact ⟨[], a, rest, rfl, by simp, h⟩
      · -- the first step succeeds, so one of the later ones fails
        rcases bind_eq_error_iff.mp h with h | ⟨later, -, h⟩
        · obtain ⟨before, c, after, rfl, hbefore, hc⟩ := ih.mp h
          refine ⟨a :: before, c, after, rfl, fun d hd => ?_, hc⟩
          rcases List.mem_cons.mp hd with rfl | hd
          · exact ⟨b, hb⟩
          · exact hbefore d hd
        · cases h
    · rintro ⟨before, c, after, h, hbefore, hc⟩
      cases before with
      | nil =>
        obtain ⟨rfl, rfl⟩ := List.cons.inj h
        exact Or.inl hc
      | cons d before =>
        obtain ⟨rfl, rfl⟩ := List.cons.inj h
        obtain ⟨b, hb⟩ := hbefore a List.mem_cons_self
        refine Or.inr ⟨b, hb, bind_eq_error_iff.mpr (Or.inl (ih.mpr ?_))⟩
        exact ⟨before, c, after, rfl, fun d hd => hbefore d (List.mem_cons_of_mem _ hd), hc⟩

/-- Going through a list succeeds if every step does. -/
theorem mapM_eq_ok {f : α → Except ε β} {g : α → β} {as : List α} (h : ∀ a ∈ as, f a = .ok (g a)) :
    as.mapM f = .ok (as.map g) := by
  rw [mapM_eq_ok_iff, List.forall₂_map_right_iff, List.forall₂_same]
  exact h

/-- Going through some elements of a list gives some of the results, if going through the whole list
succeeds. -/
theorem mapM_sublist {f : α → Except ε β} {as as' : List α} {bs' : List β} (has : as.Sublist as')
    (h : as'.mapM f = .ok bs') : ∃ bs, as.mapM f = .ok bs ∧ bs.Sublist bs' := by
  simp only [mapM_eq_ok_iff] at h ⊢
  induction has generalizing bs' with
  | slnil => exact ⟨[], .nil, List.nil_sublist _⟩
  | cons a _ ih =>
    -- the element is left out, and its result with it
    cases h with
    | cons hb hrest =>
      obtain ⟨bs, hbs, hsub⟩ := ih hrest
      exact ⟨bs, hbs, hsub.cons _⟩
  | cons_cons a _ ih =>
    cases h with
    | cons hb hrest =>
      obtain ⟨bs, hbs, hsub⟩ := ih hrest
      exact ⟨_ :: bs, .cons hb hbs, hsub.cons_cons _⟩

/-- Whatever going through a list gives comes from some step. -/
theorem exists_of_mem_mapM {f : α → Except ε β} {as : List α} {bs : List β}
    (h : as.mapM f = .ok bs) : ∀ b ∈ bs, ∃ a ∈ as, f a = .ok b := by
  induction mapM_eq_ok_iff.mp h with
  | nil => exact fun b hb => absurd hb List.not_mem_nil
  | @cons a b rest later hb hrest ih =>
    intro c hc
    rcases List.mem_cons.mp hc with rfl | hc
    · exact ⟨a, List.mem_cons_self, hb⟩
    · obtain ⟨a', ha', hfa⟩ := ih (mapM_eq_ok_iff.mpr hrest) c hc
      exact ⟨a', List.mem_cons_of_mem _ ha', hfa⟩

end SymbolicPaths
