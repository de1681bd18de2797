import SymbolicPaths.Files.Script
import SymbolicPaths.Proofs.Outcomes
import SymbolicPaths.Proofs.PathNames

/-!
# What file operations leave alone

No operation makes or removes a directory. Where a path leads to depends on directories only, and on
what stands where it ends or breaks off (`walk_congr`). Two trees that differ in files at some
locations (`ChangesOnly`) therefore agree on every path whose `goal` is not one of these locations
(`ChangesOnly.find_eq`), and on where something can be made (`ChangesOnly.place_iff`).

An operation on a path that ends in a name changes nothing but the file there (`apply_changesOnly`),
and moving a file nothing but its old and its new place (`rename_changesOnly`).
-/

namespace SymbolicPaths

namespace FileTree

variable {t t' : FileTree} {l : Location} {p : Path}

/-! ### Following steps -/

theorem demandFollowable_eq_ok : demandFollowable p = .ok () ↔
    '\x00' ∉ p.text.toList ∧ p.text ≠ "" ∧ p.text.utf8ByteSize ≤ pathLimit := by
  unfold demandFollowable
  by_cases hzero : p.text.toList.contains '\x00' = true
  · rw [if_pos hzero]
    simp_all
  rw [if_neg hzero]
  by_cases hempty : p.text.isEmpty = true
  · rw [if_pos hempty]
    simp_all
  rw [if_neg hempty]
  by_cases hlong : pathLimit < p.text.utf8ByteSize
  · rw [if_pos hlong]
    simp
    omega
  · rw [if_neg hlong]
    simp_all

theorem demandShort_eq_ok {name : String} :
    demandShort name = .ok () ↔ name.utf8ByteSize ≤ nameLimit := by
  unfold demandShort
  by_cases hlong : nameLimit < name.utf8ByteSize
  · rw [if_pos hlong]
    simp
    omega
  · rw [if_neg hlong]
    simp
    omega

theorem node?_of_ne (h : l ≠ []) : t.node? l = t.nodes[l]? :=
  if_neg h

theorem demandDirectory_eq_ok : t.demandDirectory l = .ok () ↔ t.node? l = some .directory := by
  unfold demandDirectory
  split <;> simp_all

theorem demandDirectory_congr (h : t'.node? l = t.node? l) :
    t'.demandDirectory l = t.demandDirectory l := by
  rw [demandDirectory, demandDirectory, h]

theorem enter_congr (h : t'.node? l = t.node? l) (step : String) :
    t'.enter l step = t.enter l step := by
  unfold enter
  rw [demandDirectory_congr h]

/-- A step is only taken from a directory. -/
theorem node?_of_enter {step : String} {l' : Location} (h : t.enter l step = .ok l') :
    t.node? l = some .directory := by
  apply demandDirectory_eq_ok.mp
  unfold enter at h
  cases hd : t.demandDirectory l with
  | ok _ => rfl
  | error fault =>
    rw [hd] at h
    cases h

theorem enter_name {step : String} (h : step ≠ "." ∧ step ≠ "..") :
    t.enter l step = (do t.demandDirectory l; demandShort step; return l ++ [step]) := by
  unfold enter
  split
  · exact absurd rfl h.1
  · exact absurd rfl h.2
  · rfl

theorem enter_cases {step : String} {l' : Location} (h : t.enter l step = .ok l') :
    l' = l ∨ l' = l.dropLast ∨ l' = l ++ [step] := by
  obtain ⟨_, -, hrest⟩ := bind_eq_ok_iff.mp h
  split at hrest
  · exact .inl (Except.ok.inj hrest).symm
  · exact .inr (.inl (Except.ok.inj hrest).symm)
  · obtain ⟨_, -, hl'⟩ := bind_eq_ok_iff.mp hrest
    exact .inr (.inr (Except.ok.inj hl').symm)

/-- A step with a short name can be taken from every directory. -/
theorem exists_enter {step : String} (hd : t.node? l = some .directory)
    (hshort : step.utf8ByteSize ≤ nameLimit) : ∃ l', t.enter l step = .ok l' := by
  unfold enter
  rw [demandDirectory_eq_ok.mpr hd, ok_bind]
  split
  · exact ⟨_, rfl⟩
  · exact ⟨_, rfl⟩
  · rw [demandShort_eq_ok.mpr hshort]
    exact ⟨_, rfl⟩

theorem walk_cons (t : FileTree) (l : Location) (step : String) (rest : List String) :
    t.walk l (step :: rest) = t.enter l step >>= fun l' => t.walk l' rest :=
  List.foldlM_cons

theorem walk_append (t : FileTree) (l : Location) (steps more : List String) :
    t.walk l (steps ++ more) = t.walk l steps >>= fun l' => t.walk l' more :=
  List.foldlM_append

/-- Where following steps ends or breaks off. -/
def reach (t : FileTree) (l : Location) : List String → Location
  | [] => l
  | step :: rest =>
    match t.enter l step with
    | .ok l' => t.reach l' rest
    | .error _ => l

/-- Where a path leads to or breaks off. -/
def goal (t : FileTree) (p : Path) : Location :=
  t.reach (t.start p) p.steps

theorem reach_cons_of_ok {step : String} {l' : Location} (h : t.enter l step = .ok l')
    (rest : List String) : t.reach l (step :: rest) = t.reach l' rest := by
  rw [reach, h]

theorem reach_cons_of_error {step : String} {fault : FileFault} (h : t.enter l step = .error fault)
    (rest : List String) : t.reach l (step :: rest) = l := by
  rw [reach, h]

theorem reach_append {steps : List String} {l' : Location} (h : t.walk l steps = .ok l')
    (more : List String) : t.reach l (steps ++ more) = t.reach l' more := by
  induction steps generalizing l with
  | nil =>
    obtain rfl : l = l' := Except.ok.inj h
    rfl
  | cons step rest ih =>
    rw [walk_cons] at h
    cases hstep : t.enter l step with
    | error fault =>
      rw [hstep] at h
      cases h
    | ok l₁ =>
      rw [hstep] at h
      rw [List.cons_append, reach_cons_of_ok hstep, ih h]

/-- Following steps depends on where there are directories, and on what stands where it ends or
breaks off. -/
theorem walk_congr (hdir : ∀ l, t'.node? l = some .directory ↔ t.node? l = some .directory)
    {steps : List String} (h : t'.node? (t.reach l steps) = t.node? (t.reach l steps)) :
    t'.walk l steps = t.walk l steps ∧ t'.reach l steps = t.reach l steps := by
  induction steps generalizing l with
  | nil => exact ⟨rfl, rfl⟩
  | cons step rest ih =>
    rw [walk_cons, walk_cons]
    cases hstep : t.enter l step with
    | ok l₁ =>
      -- a step is taken from a directory, and the directories are the same
      have hl := node?_of_enter hstep
      have hstep' := enter_congr (((hdir l).mpr hl).trans hl.symm) step
      rw [hstep] at hstep'
      rw [reach_cons_of_ok hstep] at h ⊢
      rw [reach_cons_of_ok hstep', hstep']
      exact ih h
    | error fault =>
      -- the way breaks off here, where the trees agree
      rw [reach_cons_of_error hstep] at h ⊢
      have hstep' := (enter_congr h step).trans hstep
      rw [reach_cons_of_error hstep', hstep']
      exact ⟨rfl, rfl⟩

/-- Steps that lead somewhere only lead through directories. -/
theorem walk_of_ok (hdir : ∀ l, t.node? l = some .directory → t'.node? l = some .directory)
    {steps : List String} {l' : Location} (h : t.walk l steps = .ok l') :
    t'.walk l steps = .ok l' := by
  induction steps generalizing l with
  | nil => exact h
  | cons step rest ih =>
    rw [walk_cons] at h ⊢
    cases hstep : t.enter l step with
    | error fault =>
      rw [hstep] at h
      cases h
    | ok l₁ =>
      have hl := node?_of_enter hstep
      rw [enter_congr ((hdir l hl).trans hl.symm), hstep]
      rw [hstep] at h
      exact ih h

theorem reach_append_of_error {steps : List String} {fault : FileFault}
    (h : t.walk l steps = .error fault) (more : List String) :
    t.reach l (steps ++ more) = t.reach l steps := by
  induction steps generalizing l with
  | nil => cases h
  | cons step rest ih =>
    rw [walk_cons] at h
    rw [List.cons_append]
    cases hstep : t.enter l step with
    | error fault => rw [reach_cons_of_error hstep, reach_cons_of_error hstep]
    | ok l₁ =>
      rw [hstep] at h
      rw [reach_cons_of_ok hstep, reach_cons_of_ok hstep, ih h]

theorem reach_of_walk {steps : List String} {l' : Location} (h : t.walk l steps = .ok l') :
    t.reach l steps = l' := by
  rw [← List.append_nil steps, reach_append h]
  rfl

/-- Where there is no directory, steps lead no further. -/
theorem reach_append_of_ne {steps : List String}
    (h : t.node? (t.reach l steps) ≠ some .directory) (more : List String) :
    t.reach l (steps ++ more) = t.reach l steps := by
  cases hwalk : t.walk l steps with
  | error fault => exact reach_append_of_error hwalk more
  | ok d =>
    rw [reach_of_walk hwalk] at h ⊢
    rw [reach_append hwalk]
    cases more with
    | nil => rfl
    | cons step rest =>
      cases hstep : t.enter d step with
      | error fault => exact reach_cons_of_error hstep rest
      | ok l₁ => exact absurd (node?_of_enter hstep) h

/-! ### Finding what stands at a path -/

theorem walk_of_locate (h : t.locate p = .ok l) : t.walk (t.start p) p.steps = .ok l := by
  obtain ⟨_, -, hwalk⟩ := bind_eq_ok_iff.mp h
  exact hwalk

theorem goal_of_locate (h : t.locate p = .ok l) : t.goal p = l :=
  reach_of_walk (walk_of_locate h)

theorem find_of_locate (h : t.locate p = .ok l) (hslash : p.endsInSlash = false) :
    t.find p = (t.node? l).elim (.error .missing) fun n => .ok (l, n) := by
  rw [find, h, ok_bind, hslash]
  cases t.node? l with
  | none => rfl
  | some n => cases n <;> rfl

theorem locate_of_find {n : FileNode} (h : t.find p = .ok (l, n)) :
    t.locate p = .ok l ∧ t.node? l = some n := by
  obtain ⟨l', hl', hn⟩ := bind_eq_ok_iff.mp h
  cases hnode : t.node? l' with
  | none =>
    rw [hnode] at hn
    cases hn
  | some n' =>
    rw [hnode] at hn
    cases n' with
    | directory =>
      obtain ⟨rfl, rfl⟩ := Prod.mk.inj (Except.ok.inj hn)
      exact ⟨hl', hnode⟩
    | file content =>
      cases hslash : p.endsInSlash with
      | true =>
        rw [hslash] at hn
        cases hn
      | false =>
        rw [hslash] at hn
        obtain ⟨rfl, rfl⟩ := Prod.mk.inj (Except.ok.inj hn)
        exact ⟨hl', hnode⟩

theorem find_congr_node (hlocate : t'.locate p = t.locate p)
    (h : ∀ l, t.locate p = .ok l → t'.node? l = t.node? l) : t'.find p = t.find p := by
  rw [find, find, hlocate]
  cases hl : t.locate p with
  | error fault => rfl
  | ok l => rw [ok_bind, ok_bind, h l hl]

/-! ### Paths that end in a name -/

theorem locate_named (h : p.IsNamed) (t : FileTree) :
    t.locate p = (do
      demandFollowable p
      let d ← t.walk (t.start p) p.folder
      t.demandDirectory d
      demandShort p.lastName
      return d ++ [p.lastName]) := by
  rw [locate, h.steps_eq_append, walk_append]
  congr 1
  funext _
  congr 1
  funext d
  rw [walk_cons, enter_name h.lastName_ne]
  simp only [bind_assoc, pure_bind]
  rfl

/-- What can be made at a path that ends in a name would stand where the path leads to. -/
theorem place_named (h : p.IsNamed) (t : FileTree) : t.place p = some <$> t.locate p := by
  have hlast : p.steps.getLast? = some p.lastName := by
    rw [h.steps_eq_append, List.getLast?_concat]
  have hinit : p.steps.dropLast = p.folder := by
    rw [h.steps_eq_append, List.dropLast_concat]
  rw [place, locate_named h, hlast, hinit]
  simp only [map_bind, map_pure]
  -- both make the same demands, one after the other
  congr 1
  funext _
  congr 1
  funext d
  congr 1
  funext _
  split
  · contradiction
  · next heq => exact absurd (Option.some.inj heq) h.lastName_ne.1
  · next heq => exact absurd (Option.some.inj heq) h.lastName_ne.2
  · next heq =>
    obtain rfl := Option.some.inj heq
    rfl

theorem locate_eq_ok (h : p.IsNamed) : t.locate p = .ok l ↔
    demandFollowable p = .ok () ∧ demandShort p.lastName = .ok () ∧
      ∃ d, t.walk (t.start p) p.folder = .ok d ∧ t.node? d = some .directory ∧
        l = d ++ [p.lastName] := by
  rw [locate_named h]
  simp only [bind_eq_ok_iff]
  constructor
  · rintro ⟨_, hf, d, hwalk, _, hd, _, hs, hl⟩
    exact ⟨hf, hs, d, hwalk, demandDirectory_eq_ok.mp hd, (Except.ok.inj hl).symm⟩
  · rintro ⟨hf, hs, d, hwalk, hd, rfl⟩
    exact ⟨_, hf, d, hwalk, _, demandDirectory_eq_ok.mpr hd, _, hs, rfl⟩

theorem place_eq_some (h : p.IsNamed) : t.place p = .ok (some l) ↔ t.locate p = .ok l := by
  rw [place_named h]
  cases t.locate p with
  | error fault =>
    constructor <;> (intro h; cases h)
  | ok l' =>
    change Except.ok (some l') = .ok (some l) ↔ _
    rw [Except.ok.injEq, Option.some.injEq, Except.ok.injEq]

/-- A path at which a file can be put ends in a name. -/
theorem isNamed_of_place (h : t.place p = .ok (some l)) (hslash : p.endsInSlash = false) :
    p.IsNamed := by
  simp only [place, bind_eq_ok_iff] at h
  obtain ⟨-, -, d, -, -, -, hrest⟩ := h
  split at hrest
  · cases hrest
  · cases hrest
  · cases hrest
  · next name hdot hdots hname =>
    refine Path.isNamed_of_getLast? hname hslash ⟨?_, ?_⟩
    · rintro rfl
      exact hdot rfl
    · rintro rfl
      exact hdots rfl

/-! ### Paths with more text at their ends -/

section

variable {s : String} (hs : '/' ∉ s.toList)

include hs

theorem start_append (t : FileTree) : t.start (p.append s) = t.start p := by
  rw [start, start, Path.isAbsolute_append hs]

/-- A path with more text at its end leads to another name in the same folder. -/
theorem locate_append_eq_ok (hlong : 2 < s.toList.length) : t.locate (p.append s) = .ok l ↔
    demandFollowable (p.append s) = .ok () ∧
      (String.ofList p.ending).utf8ByteSize + s.utf8ByteSize ≤ nameLimit ∧
      ∃ d, t.walk (t.start p) p.folder = .ok d ∧ t.node? d = some .directory ∧
        l = d ++ [String.ofList (p.ending ++ s.toList)] := by
  rw [locate_eq_ok (Path.isNamed_append hs hlong), demandShort_eq_ok, start_append hs,
    Path.folder_append hs, Path.lastName, Path.ending_append hs, String.ofList_append,
    String.ofList_toList, String.utf8ByteSize_append]

/-- A path with a longer name leads elsewhere. -/
theorem goal_ne_of_locate_append (hlong : 2 < s.toList.length) (h : t.locate (p.append s) = .ok l) :
    t.goal p ≠ l := by
  obtain ⟨-, -, d, hwalk, -, rfl⟩ := (locate_append_eq_ok hs hlong).mp h
  rw [goal, Path.steps_eq, reach_append hwalk]
  -- the last step stays in the directory, goes up, or goes to another name
  have hlength : d ≠ d ++ [String.ofList (p.ending ++ s.toList)] := by
    intro heq
    have := congrArg List.length heq
    simp at this
  by_cases hending : p.ending = []
  · rw [if_pos hending]
    exact hlength
  · rw [if_neg hending]
    cases hstep : t.enter d (String.ofList p.ending) with
    | error fault =>
      rw [reach_cons_of_error hstep]
      exact hlength
    | ok l' =>
      rw [reach_cons_of_ok hstep]
      change l' ≠ _
      intro heq
      obtain rfl | rfl | rfl := enter_cases hstep
      · exact hlength heq
      · have := congrArg List.length heq
        simp at this
      · have hname := List.append_cancel_left heq
        have hchars : p.ending = p.ending ++ s.toList :=
          String.ofList_injective (List.singleton_inj.mp hname)
        have := congrArg List.length hchars
        rw [List.length_append] at this
        omega

/-- Where a path with a longer name leads somewhere, so does the path. -/
theorem locate_of_locate_append (hp : p.IsNamed) (hlong : 2 < s.toList.length)
    (h : t.locate (p.append s) = .ok l) : ∃ l', t.locate p = .ok l' := by
  obtain ⟨hfollow, hshort, d, hwalk, hd, -⟩ := (locate_append_eq_ok hs hlong).mp h
  rw [demandFollowable_eq_ok, Path.append, String.toList_append,
    String.utf8ByteSize_append] at hfollow
  refine ⟨d ++ [p.lastName], (locate_eq_ok hp).mpr ⟨?_, ?_, d, hwalk, hd, rfl⟩⟩
  · refine demandFollowable_eq_ok.mpr ⟨fun hmem => ?_, ?_, ?_⟩
    · exact hfollow.1 (List.mem_append_left _ hmem)
    · intro htext
      apply hp.1
      rw [Path.ending, htext]
      rfl
    · omega
  · rw [demandShort_eq_ok, Path.lastName]
    omega

/-- Where paths with more text at their ends lead to one location, so do the paths. -/
theorem walk_of_locate_append {q : Path} (hlong : 2 < s.toList.length)
    (hp : t.locate (p.append s) = .ok l) (hq : t.locate (q.append s) = .ok l) :
    ∃ l', t.walk (t.start p) p.steps = .ok l' ∧ t.walk (t.start q) q.steps = .ok l' := by
  obtain ⟨-, hshort, d, hwalk, hd, rfl⟩ := (locate_append_eq_ok hs hlong).mp hp
  obtain ⟨-, -, d', hwalk', -, heq⟩ := (locate_append_eq_ok hs hlong).mp hq
  obtain ⟨rfl, hname⟩ := List.append_inj' heq rfl
  -- the names are longer than the endings by the same text
  have hending : p.ending = q.ending :=
    List.append_cancel_right (String.ofList_injective (List.singleton_inj.mp hname))
  rw [Path.steps_eq p, Path.steps_eq q, walk_append, walk_append, hwalk, hwalk', hending]
  by_cases hnil : q.ending = []
  · rw [if_pos hnil]
    exact ⟨d, rfl, rfl⟩
  · obtain ⟨l', hl'⟩ : ∃ l', t.enter d (String.ofList q.ending) = .ok l' := by
      rw [hending] at hshort
      exact exists_enter hd (by omega)
    rw [if_neg hnil, ok_bind, walk_cons, hl']
    exact ⟨l', rfl, rfl⟩

end

/-! ### Trees that differ in some places only -/

/-- `t'` is `t` but for files at some locations. The directories are the same. -/
structure ChangesOnly (S : Location → Prop) (t t' : FileTree) : Prop where
  current : t'.current = t.current
  directories : ∀ l, t'.node? l = some .directory ↔ t.node? l = some .directory
  others : ∀ l, ¬ S l → t'.nodes[l]? = t.nodes[l]?

/-- `t'` is `t` but for files. -/
abbrev SameDirectories (t t' : FileTree) : Prop :=
  ChangesOnly (fun _ => True) t t'

namespace ChangesOnly

variable {S S' : Location → Prop} {t₁ t₂ t₃ : FileTree}

theorem refl (S : Location → Prop) (t : FileTree) : ChangesOnly S t t :=
  ⟨rfl, fun _ => Iff.rfl, fun _ _ => rfl⟩

theorem symm (h : ChangesOnly S t₁ t₂) : ChangesOnly S t₂ t₁ :=
  ⟨h.current.symm, fun l => (h.directories l).symm, fun l hl => (h.others l hl).symm⟩

theorem trans (h : ChangesOnly S t₁ t₂) (h' : ChangesOnly S t₂ t₃) : ChangesOnly S t₁ t₃ :=
  ⟨h'.current.trans h.current, fun l => (h'.directories l).trans (h.directories l),
    fun l hl => (h'.others l hl).trans (h.others l hl)⟩

theorem mono (h : ChangesOnly S t₁ t₂) (hS : ∀ l, S l → S' l) : ChangesOnly S' t₁ t₂ :=
  ⟨h.current, h.directories, fun l hl => h.others l fun hl' => hl (hS l hl')⟩

theorem sameDirectories (h : ChangesOnly S t₁ t₂) : SameDirectories t₁ t₂ :=
  h.mono fun _ _ => trivial

theorem node?_eq (h : ChangesOnly S t₁ t₂) (hl : ¬ S l) : t₂.node? l = t₁.node? l := by
  rw [node?, node?, h.others l hl]

theorem start_eq (h : ChangesOnly S t₁ t₂) (p : Path) : t₂.start p = t₁.start p := by
  rw [start, start, h.current]

theorem walk_goal_eq (h : ChangesOnly S t₁ t₂) (hp : ¬ S (t₁.goal p)) :
    t₂.walk (t₂.start p) p.steps = t₁.walk (t₁.start p) p.steps ∧ t₂.goal p = t₁.goal p := by
  rw [goal, h.start_eq]
  exact walk_congr h.directories (h.node?_eq hp)

/-- A path that leads past the changes leads to the same thing. -/
theorem find_eq (h : ChangesOnly S t₁ t₂) (hp : ¬ S (t₁.goal p)) : t₂.find p = t₁.find p := by
  have hlocate : t₂.locate p = t₁.locate p := by
    rw [locate, locate, (h.walk_goal_eq hp).1]
  refine find_congr_node hlocate fun l hl => ?_
  rw [← goal_of_locate hl]
  exact h.node?_eq hp

/-- Where something can be made, it can still be made. -/
theorem place_ok (h : ChangesOnly S t₁ t₂) {x : Option Location} (hp : t₁.place p = .ok x) :
    t₂.place p = .ok x := by
  simp only [place, bind_eq_ok_iff, h.start_eq] at hp ⊢
  obtain ⟨_, hf, d, hwalk, _, hd, hx⟩ := hp
  have hd' := demandDirectory_eq_ok.mpr ((h.directories d).mpr (demandDirectory_eq_ok.mp hd))
  exact ⟨_, hf, d, walk_of_ok (fun l hl => (h.directories l).mpr hl) hwalk, _, hd', hx⟩

theorem place_iff (h : ChangesOnly S t₁ t₂) {x : Option Location} :
    t₂.place p = .ok x ↔ t₁.place p = .ok x :=
  ⟨h.symm.place_ok, h.place_ok⟩

theorem locate_iff (h : ChangesOnly S t₁ t₂) (hp : p.IsNamed) :
    t₂.locate p = .ok l ↔ t₁.locate p = .ok l := by
  rw [← place_eq_some hp, ← place_eq_some hp, h.place_iff]

/-- A path with a longer name leads to the same location if what the path itself leads to is the
same. -/
theorem locate_append_eq {s : String} (h : ChangesOnly S t₁ t₂) (hp : ¬ S (t₁.goal p))
    (hs : '/' ∉ s.toList) (hlong : 2 < s.toList.length) :
    t₂.locate (p.append s) = t₁.locate (p.append s) := by
  -- the way to the directory ends in one, or where the path itself breaks off
  have hnode : t₂.node? (t₁.reach (t₁.start p) p.folder) =
      t₁.node? (t₁.reach (t₁.start p) p.folder) := by
    by_cases hd : t₁.node? (t₁.reach (t₁.start p) p.folder) = some .directory
    · rw [hd, h.directories, hd]
    · have hgoal : t₁.goal p = t₁.reach (t₁.start p) p.folder := by
        rw [goal, Path.steps_eq, reach_append_of_ne hd]
      rw [← hgoal]
      exact h.node?_eq hp
  have hwalk := (walk_congr h.directories hnode).1
  rw [locate_named (Path.isNamed_append hs hlong), locate_named (Path.isNamed_append hs hlong),
    start_append hs, start_append hs, Path.folder_append hs, h.start_eq, hwalk]
  cases hd : t₁.walk (t₁.start p) p.folder with
  | error fault => rfl
  | ok d =>
    rw [reach_of_walk hd] at hnode
    rw [ok_bind, ok_bind, demandDirectory_congr hnode]

end ChangesOnly

/-! ### What operations change -/

theorem getElem?_put_of_ne {l' : Location} {n : FileNode} (h : l' ≠ l) :
    (t.put l n).nodes[l']? = t.nodes[l']? := by
  rw [put, Std.ExtTreeMap.getElem?_insert, if_neg]
  rw [Std.compare_eq_iff_eq]
  exact h.symm

theorem getElem?_erase_of_ne {l' : Location} (h : l' ≠ l) :
    (t.nodes.erase l)[l']? = t.nodes[l']? := by
  rw [Std.ExtTreeMap.getElem?_erase, if_neg]
  rw [Std.compare_eq_iff_eq]
  exact h.symm

theorem changesOnly_put {n : FileNode} (hn : n ≠ .directory) (h : t.node? l ≠ some .directory) :
    ChangesOnly (· = l) t (t.put l n) := by
  have hother : ∀ l', ¬ l' = l → (t.put l n).nodes[l']? = t.nodes[l']? :=
    fun l' hl' => getElem?_put_of_ne hl'
  refine ⟨rfl, fun l' => ?_, hother⟩
  by_cases hl' : l' = l
  · subst hl'
    have hne : l' ≠ [] := by
      rintro rfl
      exact h rfl
    rw [node?_of_ne hne, put, Std.ExtTreeMap.getElem?_insert_self]
    simp [hn, h]
  · rw [node?, node?, hother l' hl']

theorem node?_put_self {n : FileNode} (h : l ≠ []) : (t.put l n).node? l = some n := by
  rw [node?_of_ne h, put, Std.ExtTreeMap.getElem?_insert_self]

theorem changesOnly_erase (h : t.node? l ≠ some .directory) :
    ChangesOnly (· = l) t { t with nodes := t.nodes.erase l } := by
  have hother : ∀ l', ¬ l' = l → (t.nodes.erase l)[l']? = t.nodes[l']? :=
    fun l' hl' => getElem?_erase_of_ne hl'
  refine ⟨rfl, fun l' => ?_, hother⟩
  by_cases hl' : l' = l
  · subst hl'
    have hne : l' ≠ [] := by
      rintro rfl
      exact h rfl
    rw [node?_of_ne hne, Std.ExtTreeMap.getElem?_erase_self]
    simp [h]
  · rw [node?, node?]
    rw [hother l' hl']

theorem create_eq_ok (h : t.create p = .ok t') :
    ∃ l, t.place p = .ok (some l) ∧ t.node? l ≠ some .directory ∧ t' = t.put l (.file []) := by
  obtain ⟨x, hx, hrest⟩ := bind_eq_ok_iff.mp h
  cases x with
  | none => cases hrest
  | some l =>
    refine ⟨l, hx, ?_⟩
    dsimp only at hrest
    by_cases hrefuse : (p.endsInSlash || t.node? l = some .directory) = true
    · rw [if_pos hrefuse] at hrest
      cases hrest
    · rw [if_neg hrefuse] at hrest
      have hrefuse' : p.endsInSlash = false ∧ t.node? l ≠ some .directory := by
        simpa using hrefuse
      exact ⟨hrefuse'.2, (Except.ok.inj hrest).symm⟩

theorem append_eq_ok {content : List UInt8} (h : t.append p content = .ok t') :
    ∃ l before, t.find p = .ok (l, .file before) ∧ t' = t.put l (.file (before ++ content)) := by
  obtain ⟨⟨l, n⟩, hfind, hrest⟩ := bind_eq_ok_iff.mp h
  cases n with
  | directory => cases hrest
  | file before => exact ⟨l, before, hfind, (Except.ok.inj hrest).symm⟩

theorem rename_eq_ok {source target : Path} (h : t.rename source target = .ok t') :
    ∃ old new content, t.place source = .ok (some old) ∧ t.place target = .ok (some new) ∧
      t.node? old = some (.file content) ∧ target.endsInSlash = false ∧
      t.node? new ≠ some .directory ∧
      t' = { t with nodes := (t.nodes.erase old).insert new (.file content) } := by
  obtain ⟨old?, hold, hrest⟩ := bind_eq_ok_iff.mp h
  obtain ⟨new?, hnew, hrest⟩ := bind_eq_ok_iff.mp hrest
  cases old? with
  | none => cases hrest
  | some old =>
  cases new? with
  | none => cases hrest
  | some new =>
  dsimp only at hrest
  cases hnode : t.node? old with
  | none =>
    rw [hnode] at hrest
    cases hrest
  | some n =>
  rw [hnode] at hrest
  cases n with
  | directory => cases hrest
  | file content =>
    dsimp only at hrest
    by_cases hslash : (source.endsInSlash || target.endsInSlash) = true
    · rw [if_pos hslash] at hrest
      cases hrest
    · rw [if_neg hslash] at hrest
      have hslash' : source.endsInSlash = false ∧ target.endsInSlash = false := by
        simpa using hslash
      by_cases hd : t.node? new = some .directory
      · rw [if_pos hd] at hrest
        cases hrest
      · rw [if_neg hd] at hrest
        exact ⟨old, new, content, hold, hnew, hnode, hslash'.2, hd, (Except.ok.inj hrest).symm⟩

theorem remove_eq_ok (h : t.remove p = .ok t') :
    ∃ l content, t.place p = .ok (some l) ∧ t.node? l = some (.file content) ∧
      t' = { t with nodes := t.nodes.erase l } := by
  obtain ⟨x, hx, hrest⟩ := bind_eq_ok_iff.mp h
  cases x with
  | none => cases hrest
  | some l =>
    dsimp only at hrest
    cases hnode : t.node? l with
    | none =>
      rw [hnode] at hrest
      cases hrest
    | some n =>
      rw [hnode] at hrest
      cases n with
      | directory => cases hrest
      | file content =>
        dsimp only at hrest
        by_cases hslash : p.endsInSlash = true
        · rw [if_pos hslash] at hrest
          cases hrest
        · rw [if_neg hslash] at hrest
          exact ⟨l, content, hx, hnode, (Except.ok.inj hrest).symm⟩

/-! ### Operations on a path that ends in a name -/

section

variable {r : Path} {content before : List UInt8}

theorem ne_nil_of_locate (hr : r.IsNamed) (h : t.locate r = .ok l) : l ≠ [] := by
  obtain ⟨-, -, d, -, -, rfl⟩ := (locate_eq_ok hr).mp h
  simp

theorem find_named {n : FileNode} (hr : r.IsNamed) (h : t.locate r = .ok l)
    (hn : t.node? l = some n) : t.find r = .ok (l, n) := by
  rw [find_of_locate h hr.endsInSlash_eq, hn]
  rfl

theorem find_named_none (hr : r.IsNamed) (h : t.locate r = .ok l) (hn : t.node? l = none) :
    t.find r = .error .missing := by
  rw [find_of_locate h hr.endsInSlash_eq, hn]
  rfl

theorem create_named (hr : r.IsNamed) (h : t.locate r = .ok l) (hn : t.node? l ≠ some .directory) :
    t.create r = .ok (t.put l (.file [])) := by
  rw [create, (place_eq_some hr).mpr h, ok_bind]
  simp [hr.endsInSlash_eq, hn]
  rfl

theorem append_named (hr : r.IsNamed) (h : t.locate r = .ok l)
    (hn : t.node? l = some (.file before)) :
    t.append r content = .ok (t.put l (.file (before ++ content))) := by
  rw [append, find_named hr h hn]
  rfl

theorem rename_named {p : Path} {new : Location} (hr : r.IsNamed) (hp : p.IsNamed)
    (h : t.locate r = .ok l) (hnew : t.locate p = .ok new) (hn : t.node? l = some (.file content))
    (hd : t.node? new ≠ some .directory) :
    t.rename r p = .ok { t with nodes := (t.nodes.erase l).insert new (.file content) } := by
  rw [rename, (place_eq_some hr).mpr h, (place_eq_some hp).mpr hnew, ok_bind, ok_bind]
  simp [hn, hr.endsInSlash_eq, hp.endsInSlash_eq, hd]
  rfl

theorem read_eq_content {bytes : List UInt8} :
    t.read p = .content bytes ↔ ∃ l, t.find p = .ok (l, .file bytes) := by
  unfold read
  split <;> simp_all

theorem read_create (hr : r.IsNamed) (h : t.create r = .ok t') : t'.read r = .content [] := by
  obtain ⟨l, hl, hn, rfl⟩ := create_eq_ok h
  have hlocate := (place_eq_some hr).mp hl
  have hput := changesOnly_put (n := .file []) (by simp) hn
  refine read_eq_content.mpr ⟨l, find_named hr ((hput.locate_iff hr).mpr hlocate) ?_⟩
  exact node?_put_self (ne_nil_of_locate hr hlocate)

theorem append_of_read {before content : List UInt8} (hr : r.IsNamed)
    (h : t.read r = .content before) :
    ∃ t', t.append r content = .ok t' ∧ t'.read r = .content (before ++ content) := by
  obtain ⟨l, hfind⟩ := read_eq_content.mp h
  obtain ⟨hlocate, hn⟩ := locate_of_find hfind
  have hput := changesOnly_put (n := .file (before ++ content)) (t := t) (l := l) (by simp)
    (by rw [hn]; simp)
  refine ⟨_, append_named hr hlocate hn, read_eq_content.mpr ⟨l, ?_⟩⟩
  exact find_named hr ((hput.locate_iff hr).mpr hlocate)
    (node?_put_self (ne_nil_of_locate hr hlocate))

theorem remove_named (hr : r.IsNamed) (h : t.locate r = .ok l)
    (hn : t.node? l = some (.file content)) :
    t.remove r = .ok { t with nodes := t.nodes.erase l } := by
  rw [remove, (place_eq_some hr).mpr h, ok_bind]
  simp [hn, hr.endsInSlash_eq]
  rfl

/-- Nothing is made or removed at a path that leads to a directory or breaks off. -/
theorem remove_error_of_create (hr : r.IsNamed) {fault : FileFault}
    (h : t.create r = .error fault) : ∃ fault', t.remove r = .error fault' := by
  cases hremove : t.remove r with
  | error fault' => exact ⟨fault', rfl⟩
  | ok t' =>
    obtain ⟨l, content, hl, hn, -⟩ := remove_eq_ok hremove
    have hok := create_named hr ((place_eq_some hr).mp hl) (by rw [hn]; simp)
    rw [hok] at h
    cases h

end

end FileTree

/-- The path whose file an operation changes, unless it moves a file. -/
def FileChange.path? : FileChange → Option Path
  | .create p | .append p _ | .flush p | .sync p | .remove p => some p
  | .rename _ _ => none

namespace FileTree

variable {t t' : FileTree} {l : Location} {r : Path} {c : FileChange}

theorem eq_of_map_find {p : Path} (h : (t.find p).map (fun _ => t) = .ok t') : t = t' := by
  cases hfind : t.find p with
  | error fault =>
    rw [hfind] at h
    cases h
  | ok found =>
    rw [hfind] at h
    exact Except.ok.inj h

/-- An operation on a path that ends in a name changes nothing but the file there. -/
theorem apply_changesOnly (hr : r.IsNamed) (hc : c.path? = some r) (h : t.apply c = .ok t') :
    ChangesOnly (fun l => t.locate r = .ok l) t t' := by
  cases c with
  | rename source target => cases hc
  | create p =>
    obtain rfl := Option.some.inj hc
    obtain ⟨l, hl, hn, rfl⟩ := create_eq_ok h
    refine (changesOnly_put (by simp) hn).mono fun l' hl' => ?_
    rw [hl']
    exact (place_eq_some hr).mp hl
  | append p content =>
    obtain rfl := Option.some.inj hc
    obtain ⟨l, before, hfind, rfl⟩ := append_eq_ok h
    obtain ⟨hl, hn⟩ := locate_of_find hfind
    refine (changesOnly_put (by simp) (by rw [hn]; simp)).mono fun l' hl' => ?_
    rw [hl', hl]
  | flush p =>
    -- nothing is handed on that has not been written before
    obtain rfl := eq_of_map_find h
    exact .refl _ t
  | sync p =>
    obtain rfl := eq_of_map_find h
    exact .refl _ t
  | remove p =>
    obtain rfl := Option.some.inj hc
    obtain ⟨l, content, hl, hn, rfl⟩ := remove_eq_ok h
    refine (changesOnly_erase (by rw [hn]; simp)).mono fun l' hl' => ?_
    rw [hl']
    exact (place_eq_some hr).mp hl

/-- Moving a file changes nothing but where it was and where it is. -/
theorem rename_changesOnly {source target : Path} (h : t.rename source target = .ok t') :
    ChangesOnly (fun l => t.place source = .ok (some l) ∨ t.place target = .ok (some l)) t t' := by
  obtain ⟨old, new, content, hold, hnew, hn, -, hd, rfl⟩ := rename_eq_ok h
  have herase := changesOnly_erase (t := t) (l := old) (by rw [hn]; simp)
  have hput := changesOnly_put (t := { t with nodes := t.nodes.erase old }) (l := new)
    (n := .file content) (by simp) fun hnew' => hd ((herase.directories new).mp hnew')
  refine (herase.mono ?_).trans (hput.mono ?_)
  · rintro l rfl
    exact .inl hold
  · rintro l rfl
    exact .inr hnew

/-- A file that has been moved stands at its new place and no longer at its old one. -/
theorem find_of_rename {source target : Path} {content : List UInt8} (hsource : source.IsNamed)
    (hne : ∀ l, t.locate source = .ok l → t.goal target ≠ l)
    (hread : t.read source = .content content) (h : t.rename source target = .ok t') :
    target.IsNamed ∧ ∃ l, t.locate target = .ok l ∧ t'.find target = .ok (l, .file content) ∧
      t'.find source = .error .missing := by
  have hchange := rename_changesOnly h
  obtain ⟨old, new, content', hold, hnew, hn, hslash, -, rfl⟩ := rename_eq_ok h
  have htarget := isNamed_of_place hnew hslash
  have hlocate := (place_eq_some hsource).mp hold
  have hlocate' := (place_eq_some htarget).mp hnew
  -- what is moved is what was read
  obtain ⟨l, hfind⟩ := read_eq_content.mp hread
  obtain ⟨hl, hcontent⟩ := locate_of_find hfind
  obtain rfl : l = old := Except.ok.inj (hl.symm.trans hlocate)
  obtain rfl : content' = content := FileNode.file.inj (Option.some.inj (hn.symm.trans hcontent))
  have hnewold : new ≠ l := by
    rw [← goal_of_locate hlocate']
    exact hne l hlocate
  refine ⟨htarget, new, hlocate', ?_, ?_⟩
  · refine find_named htarget ((hchange.locate_iff htarget).mpr hlocate') ?_
    rw [node?_of_ne (ne_nil_of_locate htarget hlocate'), Std.ExtTreeMap.getElem?_insert_self]
  · refine find_named_none hsource ((hchange.locate_iff hsource).mpr hlocate) ?_
    rw [node?_of_ne (ne_nil_of_locate hsource hlocate), Std.ExtTreeMap.getElem?_insert, if_neg,
      Std.ExtTreeMap.getElem?_erase_self]
    rw [Std.compare_eq_iff_eq]
    exact hnewold

end FileTree

end SymbolicPaths
