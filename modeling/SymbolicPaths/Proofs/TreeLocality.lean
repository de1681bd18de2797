import SymbolicPaths.Proofs.FileTreeLaws

/-!
# What operations depend on

An operation looks at the directories and at the files it is about, and at nothing else. On two
trees that differ in other files only, it therefore gives the same answer, and leaves trees that
still differ in these other files only (`apply_alike`, `rename_alike`,
`FileRequest.IsAbout.answer_eq`). The trees are compared by `ChangesOnly`, which survives the same
edit on both sides (`ChangesOnly.put`, `ChangesOnly.erase`).
-/

namespace SymbolicPaths

namespace FileTree

variable {S : Location → Prop} {t t' : FileTree} {p r : Path} {c : FileChange}

/-! ### The same edit in two trees -/

theorem ChangesOnly.put (h : ChangesOnly S t t') (l : Location) (n : FileNode) :
    ChangesOnly S (t.put l n) (t'.put l n) := by
  unfold FileTree.put
  refine ⟨h.current, fun l' => ?_, fun l' hl' => ?_⟩
  · by_cases hl' : l' = []
    · rw [node?, node?, if_pos hl', if_pos hl']
    rw [node?_of_ne hl', node?_of_ne hl', Std.ExtTreeMap.getElem?_insert,
      Std.ExtTreeMap.getElem?_insert]
    split
    · rfl
    · rw [← node?_of_ne hl', ← node?_of_ne hl']
      exact h.directories l'
  · rw [Std.ExtTreeMap.getElem?_insert, Std.ExtTreeMap.getElem?_insert, h.others l' hl']

theorem ChangesOnly.erase (h : ChangesOnly S t t') (l : Location) :
    ChangesOnly S { t with nodes := t.nodes.erase l } { t' with nodes := t'.nodes.erase l } := by
  refine ⟨h.current, fun l' => ?_, fun l' hl' => ?_⟩
  · by_cases hl' : l' = []
    · rw [node?, node?, if_pos hl', if_pos hl']
    rw [node?_of_ne hl', node?_of_ne hl', Std.ExtTreeMap.getElem?_erase,
      Std.ExtTreeMap.getElem?_erase]
    split
    · rfl
    · rw [← node?_of_ne hl', ← node?_of_ne hl']
      exact h.directories l'
  · rw [Std.ExtTreeMap.getElem?_erase, Std.ExtTreeMap.getElem?_erase, h.others l' hl']

/-! ### The same operation on two trees -/

/-- Two operations fail with the same fault, or lead to trees that differ in some places only. -/
inductive Alike (S : Location → Prop) : Except FileFault FileTree → Except FileFault FileTree → Prop
  | ok {t t' : FileTree} (h : ChangesOnly S t t') : Alike S (.ok t) (.ok t')
  | error (fault : FileFault) : Alike S (.error fault) (.error fault)

theorem create_alike (h : ChangesOnly S t t') (hplace : t'.place p = t.place p)
    (hS : ∀ l, t.place p = .ok (some l) → ¬ S l) : Alike S (t.create p) (t'.create p) := by
  rw [create, create, hplace]
  cases hl : t.place p with
  | error fault => exact .error fault
  | ok x =>
    cases x with
    | none => exact .error _
    | some l =>
      rw [ok_bind, ok_bind]
      dsimp only
      rw [h.node?_eq (hS l hl)]
      split
      · exact .error _
      · exact .ok (h.put l _)

theorem append_alike {content : List UInt8} (h : ChangesOnly S t t')
    (hfind : t'.find p = t.find p) : Alike S (t.append p content) (t'.append p content) := by
  rw [append, append, hfind]
  cases t.find p with
  | error fault => exact .error fault
  | ok found =>
    obtain ⟨l, n⟩ := found
    cases n with
    | directory => exact .error _
    | file before => exact .ok (h.put l _)

theorem map_find_alike (h : ChangesOnly S t t') (hfind : t'.find p = t.find p) :
    Alike S ((t.find p).map fun _ => t) ((t'.find p).map fun _ => t') := by
  rw [hfind]
  cases t.find p with
  | error fault => exact .error fault
  | ok found => exact .ok h

theorem remove_alike (h : ChangesOnly S t t') (hplace : t'.place p = t.place p)
    (hS : ∀ l, t.place p = .ok (some l) → ¬ S l) : Alike S (t.remove p) (t'.remove p) := by
  rw [remove, remove, hplace]
  cases hl : t.place p with
  | error fault => exact .error fault
  | ok x =>
    cases x with
    | none => exact .error _
    | some l =>
      rw [ok_bind, ok_bind]
      dsimp only
      rw [h.node?_eq (hS l hl)]
      cases t.node? l with
      | none => exact .error _
      | some n =>
        cases n with
        | directory => exact .error _
        | file content =>
          dsimp only
          split
          · exact .error _
          · exact .ok (h.erase l)

theorem rename_alike {source target : Path} (h : ChangesOnly S t t')
    (hsource : t'.place source = t.place source) (htarget : t'.place target = t.place target)
    (hS : ∀ l, t.place source = .ok (some l) ∨ t.place target = .ok (some l) → ¬ S l) :
    Alike S (t.rename source target) (t'.rename source target) := by
  -- each check comes out the same in both trees
  rw [rename, rename, hsource, htarget]
  cases hold : t.place source with
  | error fault => exact .error fault
  | ok old? =>
  cases hnew : t.place target with
  | error fault => exact .error fault
  | ok new? =>
  simp only [ok_bind]
  cases old? with
  | none => exact .error _
  | some old =>
  cases new? with
  | none => exact .error _
  | some new =>
    dsimp only
    rw [h.node?_eq (hS old (.inl hold)), h.node?_eq (hS new (.inr hnew))]
    cases t.node? old with
    | none => exact .error _
    | some n =>
      cases n with
      | directory => exact .error _
      | file content =>
        dsimp only
        split
        · exact .error _
        split
        · exact .error _
        · exact .ok ((h.erase old).put new _)

/-- What becomes of a file depends on that file alone. -/
theorem apply_alike (h : ChangesOnly S t t') (hr : r.IsNamed) (hc : c.path? = some r)
    (hlocate : t'.locate r = t.locate r) (hS : ∀ l, t.locate r = .ok l → ¬ S l) :
    Alike S (t.apply c) (t'.apply c) := by
  have hfind : t'.find r = t.find r := find_congr_node hlocate fun l hl => h.node?_eq (hS l hl)
  have hplace : t'.place r = t.place r := by
    rw [place_named hr, place_named hr, hlocate]
  have hS' : ∀ l, t.place r = .ok (some l) → ¬ S l := fun l hl => hS l ((place_eq_some hr).mp hl)
  cases c with
  | rename source target => cases hc
  | create p =>
    obtain rfl := Option.some.inj hc
    exact create_alike h hplace hS'
  | append p content =>
    obtain rfl := Option.some.inj hc
    exact append_alike h hfind
  | flush p =>
    obtain rfl := Option.some.inj hc
    exact map_find_alike h hfind
  | sync p =>
    obtain rfl := Option.some.inj hc
    exact map_find_alike h hfind
  | remove p =>
    obtain rfl := Option.some.inj hc
    exact remove_alike h hplace hS'

theorem Alike.answer (h : ChangesOnly S t t') (hc : Alike S (t.apply c) (t'.apply c)) :
    (t'.answer (.change c)).1 = (t.answer (.change c)).1 ∧
      ChangesOnly S (t.answer (.change c)).2 (t'.answer (.change c)).2 := by
  simp only [FileTree.answer]
  generalize t.apply c = x at hc ⊢
  generalize t'.apply c = x' at hc ⊢
  cases hc with
  | ok h' => exact ⟨rfl, h'⟩
  | error fault => exact ⟨rfl, h⟩

end FileTree

/-- Whether a request asks what stands at a path. -/
def FileRequest.IsAbout (p : Path) (r : FileRequest) : Prop :=
  r = .status p ∨ r = .resolve p ∨ r = .read p

theorem FileRequest.IsAbout.answer_eq {p : Path} {r : FileRequest} {t t' : FileTree}
    (h : r.IsAbout p) (hfind : t'.find p = t.find p) :
    (t'.answer r).1 = (t.answer r).1 ∧ (t.answer r).2 = t ∧ (t'.answer r).2 = t' := by
  rcases h with rfl | rfl | rfl
  · refine ⟨?_, rfl, rfl⟩
    change (t'.find p).map _ = (t.find p).map _
    rw [hfind]
  · refine ⟨?_, rfl, rfl⟩
    change (t'.find p).map _ = (t.find p).map _
    rw [hfind]
  · refine ⟨?_, rfl, rfl⟩
    change t'.read p = t.read p
    rw [FileTree.read, FileTree.read, hfind]

end SymbolicPaths
