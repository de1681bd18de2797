import SymbolicPaths.Proofs.BatchLaws

/-!
# Different inputs have different outputs

A batch keeps one of several spellings of a path, and each input that it keeps has an artifact and
an unfinished artifact beside it. Spellings are compared by components, while the paths of artifacts
are texts put together, so one input can have artifacts in different places: `d` and `d/` are one
path, but their artifacts are `d.vex.json.gz` and `d/.vex.json.gz`. The converse never happens. The
artifacts of different inputs are different paths, and so are their unfinished artifacts, and no
artifact is an unfinished one (`Path.distinct_outputs`).

What decides this is how components arise from the two parts of a path, its `folder` and its
`ending`. The folder makes the components of `lead`, and a path that ends in a name has that name
behind them (`IsNamed.components_eq`). Text without a slash lengthens the ending, which is then a
name, and leaves the lead alone. So the components of the longer path tell the lead and the ending
of the shorter one, and these tell its components (`components_congr`).
-/

namespace SymbolicPaths.Path

variable {p q : Path} {s : String}

theorem same_iff : p.same q = true ↔ p.components = q.components :=
  decide_eq_true_iff

theorem same_eq_false_iff : p.same q = false ↔ p.components ≠ q.components :=
  decide_eq_false_iff_not

/-! ### Components before and at the end of a path -/

/-- The components that steps make, at the root or not. -/
def componentsOf (absolute : Bool) (steps : List String) : List Component :=
  if absolute then .root :: steps.filterMap component?
  else match steps with
    | "." :: rest => .here :: rest.filterMap component?
    | steps => steps.filterMap component?

theorem components_eq_componentsOf (p : Path) :
    p.components = componentsOf p.isAbsolute p.steps := rfl

theorem component?_of_ne (h : s ≠ "." ∧ s ≠ "..") : component? s = some (.name s) := by
  unfold component?
  split
  · exact absurd rfl h.1
  · exact absurd rfl h.2
  · rfl

theorem componentsOf_cons_of_ne {first : String} (rest : List String) (h : first ≠ ".") :
    componentsOf false (first :: rest) = (first :: rest).filterMap component? := by
  unfold componentsOf
  split
  · contradiction
  · split
    · next heq => exact absurd (List.cons.inj heq).1 h
    · rfl

/-- Only the empty relative path has no components. -/
theorem componentsOf_eq_nil_iff {absolute : Bool} {steps : List String} :
    componentsOf absolute steps = [] ↔ absolute = false ∧ steps = [] := by
  cases absolute with
  | true => simp [componentsOf]
  | false =>
    cases steps with
    | nil => simp [componentsOf]
    | cons first rest =>
      by_cases hfirst : first = "."
      · subst hfirst
        simp [componentsOf]
      · rw [componentsOf_cons_of_ne rest hfirst, List.filterMap_cons]
        -- a first step other than `.` always makes a component
        have hcomponent : ∃ c, component? first = some c := by
          by_cases habove : first = ".."
          · exact ⟨.above, by rw [habove]; rfl⟩
          · exact ⟨_, component?_of_ne ⟨hfirst, habove⟩⟩
        obtain ⟨c, hc⟩ := hcomponent
        simp [hc]

/-- One more step makes one more component, or none if it is a `.` that something precedes. -/
theorem componentsOf_concat (absolute : Bool) (steps : List String) (s : String) :
    componentsOf absolute (steps ++ [s]) =
      if componentsOf absolute steps = [] ∧ s = "." then [.here]
      else componentsOf absolute steps ++ (component? s).toList := by
  have hlast : [s].filterMap component? = (component? s).toList := by
    rw [List.filterMap_cons, List.filterMap_nil]
    cases component? s <;> rfl
  cases absolute with
  | true =>
    have hne : componentsOf true steps ≠ [] := by simp [componentsOf_eq_nil_iff]
    rw [if_neg fun h => hne h.1, ← hlast]
    simp only [componentsOf, if_true, List.filterMap_append, List.cons_append]
  | false =>
    cases steps with
    | nil =>
      by_cases hs : s = "."
      · rw [if_pos ⟨rfl, hs⟩, hs]
        rfl
      · rw [if_neg fun h => hs h.2, ← hlast]
        exact componentsOf_cons_of_ne [] hs
    | cons first rest =>
      have hne : componentsOf false (first :: rest) ≠ [] := by simp [componentsOf_eq_nil_iff]
      rw [if_neg fun h => hne h.1, ← hlast, List.cons_append]
      by_cases hfirst : first = "."
      · subst hfirst
        simp only [componentsOf, Bool.false_eq_true, if_false, List.filterMap_append,
          List.cons_append]
      · rw [componentsOf_cons_of_ne _ hfirst, componentsOf_cons_of_ne _ hfirst, ← List.cons_append,
          List.filterMap_append]

/-- The components of a path before its ending. -/
def lead (p : Path) : List Component :=
  componentsOf p.isAbsolute p.folder

/-- Lead and ending tell the components of a path. -/
theorem components_congr (hlead : p.lead = q.lead) (hending : p.ending = q.ending) :
    p.components = q.components := by
  rw [components_eq_componentsOf, components_eq_componentsOf, steps_eq, steps_eq, hending]
  split
  · rw [List.append_nil, List.append_nil]
    exact hlead
  · rw [componentsOf_concat, componentsOf_concat]
    rw [lead, lead] at hlead
    rw [hlead]

theorem IsNamed.components_eq (h : p.IsNamed) : p.components = p.lead ++ [.name p.lastName] := by
  rw [components_eq_componentsOf, h.steps_eq_append, componentsOf_concat,
    if_neg fun hs => h.lastName_ne.1 hs.2, component?_of_ne h.lastName_ne]
  rfl

/-! ### Text behind a path -/

theorem lead_append (h : '/' ∉ s.toList) : (p.append s).lead = p.lead := by
  rw [lead, lead, isAbsolute_append h, folder_append h]

/-- A name put together from the ending of a path and more text is the last component. -/
theorem components_append (h : '/' ∉ s.toList) (hlong : 2 < s.toList.length) :
    (p.append s).components = p.lead ++ [.name (String.ofList (p.ending ++ s.toList))] := by
  rw [(isNamed_append h hlong).components_eq, lead_append h, lastName, ending_append h]

/-- Paths that are different stay so if the same text is put behind both. -/
theorem components_of_append (h : '/' ∉ s.toList) (hlong : 2 < s.toList.length)
    (heq : (p.append s).components = (q.append s).components) : p.components = q.components := by
  rw [components_append h hlong, components_append h hlong] at heq
  obtain ⟨hlead, hlast⟩ := List.append_inj' heq rfl
  have hname : String.ofList (p.ending ++ s.toList) = String.ofList (q.ending ++ s.toList) :=
    Component.name.inj (List.cons.inj hlast).1
  have hending : p.ending = q.ending := List.append_cancel_right (String.ofList_injective hname)
  exact components_congr hlead hending

/-- No artifact is the unfinished artifact of anything. -/
theorem components_artifact_ne (p q : Path) :
    p.artifact.components ≠ q.artifact.unfinished.components := by
  rw [unfinished_artifact, artifact, components_append (by decide) (by decide),
    components_append (by decide) (by decide)]
  intro heq
  -- the last characters of the two names differ
  have hlast := Component.name.inj (List.cons.inj (List.append_inj' heq rfl).2).1
  have hchars := congrArg List.getLast? (String.ofList_injective hlast)
  have hcomplete : ".vex.json.gz".toList.getLast? = some 'z' := by decide
  have hpartial : ".vex.json.gz.partial".toList.getLast? = some 'l' := by decide
  rw [List.getLast?_append, List.getLast?_append, hcomplete, hpartial] at hchars
  exact absurd (Option.some.inj hchars) (by decide)

/-! ### Keeping one of several spellings -/

theorem distinct_sublist (paths : List Path) : (distinct paths).Sublist paths := by
  induction paths with
  | nil => exact .slnil
  | cons p rest ih => exact (List.filter_sublist.trans ih).cons_cons p

theorem pairwise_distinct (paths : List Path) :
    (distinct paths).Pairwise fun p q => p.components ≠ q.components := by
  induction paths with
  | nil => exact .nil
  | cons p rest ih =>
    refine List.pairwise_cons.mpr ⟨fun q hq => ?_, ih.filter _⟩
    have hkept := (List.mem_filter.mp hq).2
    rw [Bool.not_eq_true'] at hkept
    exact same_eq_false_iff.mp hkept

/-- The first spelling of each path is kept. -/
theorem exists_distinct_of_getElem? {paths : List Path} {i : Nat} (h : paths[i]? = some p) :
    ∃ j ≤ i, ∃ q, paths[j]? = some q ∧ q ∈ distinct paths ∧ q.components = p.components := by
  induction paths generalizing i with
  | nil => cases h
  | cons first rest ih =>
    -- what has the components of the first path is covered by it
    by_cases hfirst : first.components = p.components
    · exact ⟨0, Nat.zero_le i, first, rfl, List.mem_cons_self, hfirst⟩
    · cases i with
      | zero =>
        obtain rfl : first = p := Option.some.inj h
        exact absurd rfl hfirst
      | succ i =>
        obtain ⟨j, hj, q, hq, hkept, hcomponents⟩ := ih h
        have hdiffers : first.same q = false :=
          same_eq_false_iff.mpr fun heq => hfirst (heq.trans hcomponents)
        refine ⟨j + 1, Nat.succ_le_succ hj, q, hq, ?_, hcomponents⟩
        exact List.mem_cons_of_mem _ (List.mem_filter.mpr ⟨hkept, by rw [hdiffers]; rfl⟩)

/-- **Different inputs of a batch have different outputs.** The inputs that a batch keeps are some
of those it was given, in order, and pairwise different as paths; each input is the same path as a
kept one that does not come later. The artifacts of any two kept inputs are different paths, and so
are their unfinished artifacts. No artifact of a kept input is the same path as an unfinished
artifact of a kept input. -/
theorem distinct_outputs (inputs : List Path) :
    (distinct inputs).Sublist inputs ∧
    ((distinct inputs).Pairwise fun p q => p.same q = false) ∧
    (∀ (i : Nat) (p : Path), inputs[i]? = some p →
      ∃ j ≤ i, ∃ q, inputs[j]? = some q ∧ q ∈ distinct inputs ∧ q.same p = true) ∧
    ((distinct inputs).Pairwise fun p q => p.artifact.same q.artifact = false ∧
      p.artifact.unfinished.same q.artifact.unfinished = false) ∧
    ∀ p ∈ distinct inputs, ∀ q ∈ distinct inputs,
      p.artifact.same q.artifact.unfinished = false := by
  refine ⟨distinct_sublist inputs, ?_, fun i p hp => ?_, ?_, fun p _ q _ => ?_⟩
  · exact (pairwise_distinct inputs).imp fun h => same_eq_false_iff.mpr h
  · simpa only [same_iff] using exists_distinct_of_getElem? hp
  · refine (pairwise_distinct inputs).imp fun {p q} hdiffer => ?_
    rw [same_eq_false_iff, same_eq_false_iff, unfinished_artifact, unfinished_artifact]
    refine ⟨fun heq => hdiffer ?_, fun heq => hdiffer ?_⟩
    · exact components_of_append (by decide) (by decide) heq
    · exact components_of_append (by decide) (by decide) heq
  · exact same_eq_false_iff.mpr (components_artifact_ne p q)

/-- A trailing slash does not make another path, but another place for the artifact. -/
example :
    (⟨"d"⟩ : Path).same ⟨"d/"⟩ = true ∧ (⟨"d"⟩ : Path).artifact.same (artifact ⟨"d/"⟩) = false := by
  decide +kernel

end SymbolicPaths.Path
