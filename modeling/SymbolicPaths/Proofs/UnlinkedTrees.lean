import SymbolicPaths.Proofs.LinkedWriting

/-!
# Trees of files are linked trees without links

A linked tree in which there are no symbolic links and each file stands at one location `Represents`
a tree of files. Paths lead to the same locations in both (`Represents.place_eq_some`), and the same
operations can be done in both and do the same (`Represents.exists_apply`, `Represents.apply_ok`).
Whatever way there is for a script to go on a tree of files, there is one on the linked tree
(`Represents.steps`). Each tree of files is represented (`represents_ofTree`), so what holds of
writing in linked trees holds in trees of files (`Artifact.exists_linked_writeTo`).
-/

namespace SymbolicPaths

open Script

/-- Whether the path that an operation works on, or moves something from, ends in a name. -/
def FileChange.IsNamed : FileChange → Prop
  | .rename source _ => source.IsNamed
  | .create p | .append p _ | .flush p | .sync p | .remove p => p.IsNamed

/-- A node of a tree of files as one of a linked tree. -/
def FileNode.linked : FileNode → LinkedNode
  | .file content => .file content
  | .directory => .directory

namespace LinkedTree

variable {g g' : LinkedTree} {t t' : FileTree} {l : Location} {p r : Path} {c : FileChange}

/-- The same files and directories, without links. -/
structure Represents (g : LinkedTree) (t : FileTree) : Prop where
  current : g.current = t.current
  node?_eq : ∀ l, g.node? l = (t.node? l).map FileNode.linked
  oneName : ∀ l l' n, g.entryAt l = some (.file n) → g.entryAt l' = some (.file n) → l' = l

namespace Represents

theorem directory_iff (h : Represents g t) :
    g.node? l = some .directory ↔ t.node? l = some .directory := by
  rw [h.node?_eq]
  cases t.node? l with
  | none => simp
  | some n => cases n <;> simp [FileNode.linked]

theorem ne_link (h : Represents g t) (target : Path) : g.node? l ≠ some (.link target) := by
  rw [h.node?_eq]
  cases t.node? l with
  | none => simp
  | some n => cases n <;> simp [FileNode.linked]

theorem file_iff (h : Represents g t) {content : List UInt8} :
    t.node? l = some (.file content) ↔
      ∃ n, g.entryAt l = some (.file n) ∧ g.contents n = content := by
  rw [← node?_eq_file, h.node?_eq]
  cases t.node? l with
  | none => simp
  | some n => cases n <;> simp [FileNode.linked]

theorem enter_eq (h : Represents g t) (l : Location) (step : String) :
    g.enter l step = (t.enter l step).toOption.map .inl := by
  by_cases hd : t.node? l = some .directory
  · have hg := h.directory_iff.mpr hd
    by_cases hdot : step = "."
    · subst hdot
      rw [FileTree.enter, FileTree.demandDirectory_eq_ok.mpr hd, enter, if_neg (not_not_intro hg)]
      rfl
    by_cases hdots : step = ".."
    · subst hdots
      rw [FileTree.enter, FileTree.demandDirectory_eq_ok.mpr hd, enter, if_neg (not_not_intro hg)]
      rfl
    rw [FileTree.enter_name ⟨hdot, hdots⟩, FileTree.demandDirectory_eq_ok.mpr hd, ok_bind]
    by_cases hshort : step.utf8ByteSize ≤ FileTree.nameLimit
    · rw [FileTree.demandShort_eq_ok.mpr hshort,
        enter_name hg ⟨hdot, hdots⟩ hshort fun target => h.ne_link target]
      rfl
    · rw [FileTree.demandShort, if_pos (Nat.lt_of_not_le hshort),
        enter_refused ⟨hdot, hdots⟩ fun hnot => hshort hnot.2]
      rfl
  · obtain ⟨fault, hfault⟩ : ∃ fault, t.enter l step = .error fault := by
      cases hstep : t.enter l step with
      | error fault => exact ⟨fault, rfl⟩
      | ok l' => exact absurd (FileTree.node?_of_enter hstep) hd
    rw [hfault, enter, if_pos fun hg => hd (h.directory_iff.mp hg)]
    rfl

theorem follow_eq (h : Represents g t) (links : Nat) (l : Location) (steps : List String) :
    g.follow links l steps = (t.walk l steps).toOption.map (links, ·) := by
  induction steps generalizing l with
  | nil => exact follow_nil links
  | cons step rest ih =>
    have hstep := h.enter_eq l step
    rw [FileTree.walk_cons]
    cases henter : t.enter l step with
    | error fault =>
      rw [henter] at hstep
      exact follow_cons_of_none links rest hstep
    | ok l' =>
      rw [henter] at hstep
      rw [follow_cons_of_enter links rest hstep, ih]
      rfl

theorem place_eq_some (h : Represents g t) (hp : p.IsNamed) :
    g.place p = some l ↔ t.locate p = .ok l := by
  have hstart : start g.current p = t.start p := by
    rw [h.current]
    rfl
  rw [LinkedTree.place_eq_some, FileTree.locate_eq_ok hp, hstart, h.follow_eq,
    FileTree.demandShort_eq_ok]
  constructor
  · rintro ⟨hfollow, hshort, links, d, hwalk, hd, rfl⟩
    refine ⟨hfollow.2, hshort, d, ?_, h.directory_iff.mp hd, rfl⟩
    cases hw : t.walk (t.start p) p.folder with
    | error fault =>
      rw [hw] at hwalk
      cases hwalk
    | ok d' =>
      rw [hw] at hwalk
      cases hwalk
      rfl
  · rintro ⟨hfollow, hshort, d, hwalk, hd, rfl⟩
    refine ⟨⟨hp, hfollow⟩, hshort, linkLimit, d, ?_, h.directory_iff.mpr hd, rfl⟩
    rw [hwalk]
    rfl

theorem landing_eq_some (h : Represents g t) (hp : p.IsNamed) :
    g.landing p = some l ↔ t.locate p = .ok l := by
  rw [landing_eq_place fun l target _ => h.ne_link target, h.place_eq_some hp]

/-! ### Operations on both -/

/-- A file that changes what it holds, or is made. -/
theorem put {content : List UInt8} (h : Represents g t) (hl : l ≠ [])
    (hcurrent : g'.current = g.current) (hself : g'.node? l = some (.file content))
    (hothers : ∀ l', l' ≠ l → g'.node? l' = g.node? l')
    (hname : ∀ l l' n, g'.entryAt l = some (.file n) → g'.entryAt l' = some (.file n) → l' = l) :
    Represents g' (t.put l (.file content)) := by
  refine ⟨hcurrent.trans h.current, fun l' => ?_, hname⟩
  by_cases hl' : l' = l
  · subst hl'
    rw [hself, FileTree.node?_put_self hl]
    rfl
  · rw [hothers l' hl', h.node?_eq, FileTree.node?, FileTree.node?,
      FileTree.getElem?_put_of_ne hl']

theorem write {n : Nat} (h : Represents g t) (hl : l ≠ []) (hn : g.entryAt l = some (.file n))
    (content : List UInt8) : Represents (g.write n content) (t.put l (.file content)) := by
  refine h.put hl rfl (node?_eq_file.mpr ⟨n, hn, if_pos rfl⟩) (fun l' hl' => ?_) h.oneName
  exact node?_write_of_ne fun hn' => hl' (h.oneName l l' n hn hn')

theorem add (h : Represents g t) (hl : l ≠ []) : Represents (g.add l) (t.put l (.file [])) := by
  have hold (l' : Location) (hn : g.entryAt l' = some (.file g.next)) : False := by
    rw [entryAt_of_ne (by rintro rfl; cases hn)] at hn
    exact Nat.lt_irrefl _ (g.fresh l' _ hn)
  refine h.put hl rfl (node?_eq_file.mpr ⟨g.next, ?_, if_pos rfl⟩)
    (fun l' hl' => node?_add_of_ne hl hl') fun l₁ l₂ n h₁ h₂ => ?_
  · rw [entryAt_add hl, if_pos rfl]
  · rw [entryAt_add hl] at h₁ h₂
    -- the new file has a number of its own
    split at h₁ <;> split at h₂
    · simp_all
    · cases h₁
      exact (hold l₂ h₂).elim
    · cases h₂
      exact (hold l₁ h₁).elim
    · exact h.oneName l₁ l₂ n h₁ h₂

theorem clear (h : Represents g t) (hl : l ≠ []) :
    Represents (g.clear l) { t with nodes := t.nodes.erase l } := by
  refine ⟨h.current, fun l' => ?_, fun l₁ l₂ n h₁ h₂ => ?_⟩
  · by_cases hl' : l' = l
    · subst hl'
      rw [node?_eq_none.mpr (by rw [entryAt_clear hl, if_pos rfl]), FileTree.node?_of_ne hl,
        Std.ExtTreeMap.getElem?_erase_self]
      rfl
    · rw [node?_clear_of_ne hl hl', h.node?_eq, FileTree.node?, FileTree.node?,
        FileTree.getElem?_erase_of_ne hl']
  · rw [entryAt_clear hl] at h₁ h₂
    split at h₁ <;> split at h₂
    · cases h₁
    · cases h₁
    · cases h₂
    · exact h.oneName l₁ l₂ n h₁ h₂

/-- A file that is moved, possibly to where it stands. -/
theorem rename {content : List UInt8} {old new : Location} (h : Represents g t) (hold : old ≠ [])
    (hnew : new ≠ []) (hcurrent : g'.current = g.current)
    (hself : g'.node? new = some (.file content))
    (hothers : ∀ l, l ≠ new → g'.node? l = (g.clear old).node? l)
    (hname : ∀ l l' n, g'.entryAt l = some (.file n) → g'.entryAt l' = some (.file n) → l' = l) :
    Represents g' { t with nodes := (t.nodes.erase old).insert new (.file content) } :=
  (h.clear hold).put hnew hcurrent hself hothers hname

theorem move {n : Nat} {old new : Location} (h : Represents g t) (hold : old ≠ []) (hnew : new ≠ [])
    (hn : g.entryAt old = some (.file n)) :
    Represents (g.move old new)
      { t with nodes := (t.nodes.erase old).insert new (.file (g.contents n)) } := by
  refine h.rename hold hnew rfl ?_ (fun l hl => ?_) fun l₁ l₂ m h₁ h₂ => ?_
  · rw [node?_move hold hnew, if_pos rfl]
    exact node?_eq_file.mpr ⟨n, hn, rfl⟩
  · rw [node?_move hold hnew, if_neg hl]
    by_cases hl' : l = old
    · rw [if_pos hl', node?_eq_none.mpr (by rw [entryAt_clear hold, if_pos hl'])]
    · rw [if_neg hl', node?_clear_of_ne hold hl']
  · rw [entryAt_move hold hnew] at h₁ h₂
    have hone := h.oneName
    grind

/-- **What can be done in a tree of files can be done in the linked tree.** -/
theorem exists_apply (h : Represents g t) (hc : c.IsNamed) (happly : t.apply c = .ok t') :
    ∃ g', g.apply c = some g' ∧ Represents g' t' := by
  cases c with
  | create p =>
    obtain ⟨l, hl, hn, rfl⟩ := FileTree.create_eq_ok happly
    rw [FileTree.place_eq_some hc] at hl
    have hne := FileTree.ne_nil_of_locate hc hl
    have hlanding := (h.landing_eq_some hc).mpr hl
    cases hnode : t.node? l with
    | none =>
      have hnone : g.entryAt l = none := node?_eq_none.mp (by rw [h.node?_eq, hnode]; rfl)
      exact ⟨_, create_eq_some.mpr ⟨l, hlanding, .inl ⟨hnone, rfl⟩⟩, h.add hne⟩
    | some node =>
      cases node with
      | directory => exact absurd hnode hn
      | file content =>
        obtain ⟨n, hentry, -⟩ := h.file_iff.mp hnode
        exact ⟨_, create_eq_some.mpr ⟨l, hlanding, .inr ⟨n, hentry, rfl⟩⟩, h.write hne hentry []⟩
  | append p content =>
    obtain ⟨l, before, hfind, rfl⟩ := FileTree.append_eq_ok happly
    obtain ⟨hl, hn⟩ := FileTree.locate_of_find hfind
    obtain ⟨n, hentry, rfl⟩ := h.file_iff.mp hn
    exact ⟨_, append_eq_some.mpr ⟨l, (h.landing_eq_some hc).mpr hl, n, hentry, rfl⟩,
      h.write (FileTree.ne_nil_of_locate hc hl) hentry _⟩
  | flush p | sync p =>
    obtain rfl := FileTree.eq_of_map_find happly
    obtain ⟨⟨l, n⟩, hfind⟩ : ∃ found, t.find p = .ok found := by
      cases hfind : t.find p with
      | ok found => exact ⟨found, rfl⟩
      | error fault =>
        simp only [FileTree.apply, hfind] at happly
        cases happly
    obtain ⟨hl, hn⟩ := FileTree.locate_of_find hfind
    have hentry : g.entryAt l ≠ none := by
      rw [Ne, ← node?_eq_none, h.node?_eq, hn]
      simp
    exact ⟨g, flush_eq_some.mpr ⟨⟨l, (h.landing_eq_some hc).mpr hl,
      Option.ne_none_iff_exists'.mp hentry⟩, rfl⟩, h⟩
  | rename source target =>
    obtain ⟨old, new, content, hold, hnew, hn, hslash, hd, rfl⟩ := FileTree.rename_eq_ok happly
    have htarget := FileTree.isNamed_of_place hnew hslash
    rw [FileTree.place_eq_some hc] at hold
    rw [FileTree.place_eq_some htarget] at hnew
    have hne := FileTree.ne_nil_of_locate hc hold
    have hne' := FileTree.ne_nil_of_locate htarget hnew
    obtain ⟨n, hentry, rfl⟩ := h.file_iff.mp hn
    have hdirectory : g.entryAt new ≠ some .directory := by
      rw [Ne, ← node?_eq_directory, h.directory_iff]
      exact hd
    by_cases hsame : old = new
    · subst hsame
      refine ⟨g, ?_, h.rename hne hne rfl (node?_eq_file.mpr ⟨n, hentry, rfl⟩)
        (fun l hl => (node?_clear_of_ne hne hl).symm) h.oneName⟩
      simp [apply, (h.place_eq_some hc).mpr hold, (h.place_eq_some htarget).mpr hnew, hentry]
    · have hother : g.entryAt new ≠ some (.file n) :=
        fun hn' => hsame (h.oneName new old n hn' hentry)
      refine ⟨g.move old new, ?_, h.move hne hne' hentry⟩
      simp [apply, (h.place_eq_some hc).mpr hold, (h.place_eq_some htarget).mpr hnew, hentry, hsame,
        hother, hdirectory]
  | remove p =>
    obtain ⟨l, content, hl, hn, rfl⟩ := FileTree.remove_eq_ok happly
    rw [FileTree.place_eq_some hc] at hl
    obtain ⟨n, hentry, -⟩ := h.file_iff.mp hn
    exact ⟨_,
      remove_eq_some.mpr ⟨l, (h.place_eq_some hc).mpr hl, by simp [hentry], by simp [hentry],
      rfl⟩, h.clear (FileTree.ne_nil_of_locate hc hl)⟩

theorem file_of_entry {e : Entry} (h : Represents g t) (he : g.entryAt l = some e)
    (hd : e ≠ .directory) : ∃ n, e = .file n ∧ t.node? l = some (.file (g.contents n)) := by
  cases e with
  | file n => exact ⟨n, rfl, h.file_iff.mpr ⟨n, he, rfl⟩⟩
  | directory => exact absurd rfl hd
  | link target =>
    refine absurd ?_ (h.ne_link (l := l) target)
    rw [node?, he]
    rfl

/-- **What can be done in the linked tree can be done in the tree of files.** -/
theorem apply_ok (h : Represents g t) (hc : c.IsNamed) (happly : g.apply c = some g') :
    ∃ t', t.apply c = .ok t' ∧ Represents g' t' := by
  have hdone : ∃ t', t.apply c = .ok t' := by
    cases c with
    | create p =>
      obtain ⟨l, hl, hentry⟩ := create_eq_some.mp happly
      refine ⟨_, FileTree.create_named hc ((h.landing_eq_some hc).mp hl) ?_⟩
      rw [Ne, ← h.directory_iff, node?_eq_directory]
      rcases hentry with ⟨hnone, -⟩ | ⟨n, hn, -⟩
      · simp [hnone]
      · simp [hn]
    | append p content =>
      obtain ⟨l, hl, n, hn, -⟩ := append_eq_some.mp happly
      exact ⟨_, FileTree.append_named hc ((h.landing_eq_some hc).mp hl)
        (h.file_iff.mpr ⟨n, hn, rfl⟩)⟩
    | flush p | sync p =>
      obtain ⟨⟨l, hl, e, he⟩, -⟩ := flush_eq_some.mp happly
      obtain ⟨node, hnode⟩ : ∃ node, t.node? l = some node := by
        refine Option.ne_none_iff_exists'.mp fun hnone => ?_
        rw [node?_eq_none.mp (by rw [h.node?_eq, hnone]; rfl)] at he
        cases he
      exact ⟨t, by rw [FileTree.apply, FileTree.find_named hc ((h.landing_eq_some hc).mp hl) hnode];
                   rfl⟩
    | rename source target =>
      obtain ⟨old, new, e, hold, hnew, he, hed, hd, -⟩ := rename_eq_some happly
      obtain ⟨n, rfl, hn⟩ := h.file_of_entry he hed
      have htarget : target.IsNamed := (LinkedTree.place_eq_some.mp hnew).1.1
      rw [h.place_eq_some hc] at hold
      rw [h.place_eq_some htarget] at hnew
      refine ⟨_, FileTree.rename_named hc htarget hold hnew hn ?_⟩
      rw [Ne, ← h.directory_iff, node?_eq_directory]
      exact hd
    | remove p =>
      obtain ⟨l, hl, hne, hd, -⟩ := remove_eq_some.mp happly
      obtain ⟨e, he⟩ := Option.ne_none_iff_exists'.mp hne
      obtain ⟨n, rfl, hn⟩ := h.file_of_entry he (by rintro rfl; exact hd he)
      exact ⟨_, FileTree.remove_named hc ((h.place_eq_some hc).mp hl) hn⟩
  obtain ⟨t', ht'⟩ := hdone
  obtain ⟨g'', hg'', hrepresents⟩ := h.exists_apply hc ht'
  obtain rfl : g'' = g' := Option.some.inj (hg''.symm.trans happly)
  exact ⟨t', ht', hrepresents⟩

/-! ### Scripts on both -/

variable {α : Type} {mayFail : FileChange → Prop} {s s' : Script α} {acts : List Act}

theorem answers {answer : Except FileFault Unit} (h : Represents g t) (hc : c.IsNamed)
    (hanswer : t.Answers mayFail (.change c) answer t') :
    ∃ g', g.Answers (.change c) answer g' ∧ Represents g' t' := by
  obtain ⟨rfl, happly⟩ | ⟨fault, rfl, ⟨rfl, -⟩ | ⟨-, d, hd, happly⟩⟩ := hanswer.change_cases
  · obtain ⟨g', hg', hrepresents⟩ := h.exists_apply hc happly
    exact ⟨g', .done hg', hrepresents⟩
  · exact ⟨g, .failed c fault, h⟩
  · have hnamed : d.IsNamed := by
      cases hd <;> exact hc
    obtain ⟨g', hg', hrepresents⟩ := h.exists_apply hnamed happly
    exact ⟨g', .torn hd hg' fault, hrepresents⟩

/-- Whatever way there is for a script to go on a tree of files, there is one on the linked tree. -/
theorem steps (h : Represents g t) (hs : s.AsksOnly fun r => ∃ c, r = .change c ∧ c.IsNamed)
    (hsteps : Steps (FileTree.Answers mayFail) s t acts s' t') :
    ∃ g', Steps Answers s g acts s' g' ∧ Represents g' t' := by
  induction hsteps generalizing g with
  | refl s t => exact ⟨g, .refl s g, h⟩
  | head hstep _ ih =>
    cases hstep with
    | note e s t =>
      obtain ⟨g', hg', hrepresents⟩ := ih h hs
      exact ⟨g', .head (.note e _ g) hg', hrepresents⟩
    | ask hanswer =>
      obtain ⟨⟨c, rfl, hc⟩, hrest⟩ := hs
      obtain ⟨g₁, hg₁, h₁⟩ := h.answers hc hanswer
      obtain ⟨g', hg', hrepresents⟩ := ih h₁ (hrest _)
      exact ⟨g', .head (.ask hg₁) hg', hrepresents⟩

theorem clear_path (h : Represents g t) (r : Path) : g.Clear r :=
  ⟨fun _ target _ => h.ne_link target, fun l n l' _ hn hn' => h.oneName l l' n hn hn'⟩

end Represents

/-! ### Trees of files as linked trees -/

theorem mem_keys {n : FileNode} (h : t.nodes[l]? = some n) : l ∈ t.nodes.keys := by
  rw [Std.ExtTreeMap.mem_keys, Std.ExtTreeMap.mem_iff_isSome_getElem?, h]
  rfl

/-- A tree of files as a linked tree. Files are numbered in the order of their locations. -/
def ofTree (t : FileTree) : LinkedTree where
  entries l := t.nodes[l]?.map fun
    | .file _ => .file (t.nodes.keys.idxOf l)
    | .directory => .directory
  contents n := match t.nodes.keys[n]?.bind (t.nodes[·]?) with
    | some (.file content) => content
    | _ => []
  current := t.current
  next := t.nodes.keys.length
  fresh l n h := by
    obtain ⟨node, hnode, hn⟩ := Option.map_eq_some_iff.mp h
    cases node with
    | directory => cases hn
    | file content =>
      obtain rfl := Entry.file.inj hn
      exact List.idxOf_lt_length_of_mem (mem_keys hnode)

theorem entryAt_ofTree (h : l ≠ []) : (ofTree t).entryAt l = t.nodes[l]?.map fun
    | .file _ => .file (t.nodes.keys.idxOf l)
    | .directory => .directory :=
  entryAt_of_ne h

theorem contents_ofTree {content : List UInt8} (h : t.nodes[l]? = some (.file content)) :
    (ofTree t).contents (t.nodes.keys.idxOf l) = content := by
  simp only [ofTree, List.getElem?_idxOf (mem_keys h), Option.bind_some, h]

theorem idxOf_of_entry {n : Nat} (h : (ofTree t).entryAt l = some (.file n)) :
    l ∈ t.nodes.keys ∧ n = t.nodes.keys.idxOf l := by
  have hl : l ≠ [] := by
    rintro rfl
    cases h
  rw [entryAt_ofTree hl] at h
  obtain ⟨node, hnode, hn⟩ := Option.map_eq_some_iff.mp h
  cases node with
  | directory => cases hn
  | file content => exact ⟨mem_keys hnode, (Entry.file.inj hn).symm⟩

theorem represents_ofTree (t : FileTree) : Represents (ofTree t) t := by
  refine ⟨rfl, fun l => ?_, fun l l' n h h' => ?_⟩
  · by_cases hl : l = []
    · subst hl
      rfl
    rw [FileTree.node?_of_ne hl, node?, entryAt_ofTree hl]
    cases hn : t.nodes[l]? with
    | none => rfl
    | some node =>
      cases node with
      | directory => rfl
      | file content => exact congrArg (some <| LinkedNode.file ·) (contents_ofTree hn)
  · obtain ⟨hl, hn⟩ := idxOf_of_entry h
    obtain ⟨hl', hn'⟩ := idxOf_of_entry h'
    exact (List.idxOf_inj hl').mp (hn'.symm.trans hn)

end LinkedTree

/-- **Whatever a write does in a tree of files, it does in a linked tree** where the path of the
unfinished file is clear of links. -/
theorem Artifact.exists_linked_writeTo {a : Artifact} {z : Gzip.Compressor} {p : Path}
    {mayFail : FileChange → Prop} {t t' : FileTree} {acts : List Act}
    {s' : Script (Except ArtifactError Unit)}
    (h : Steps (FileTree.Answers mayFail) (a.writeTo z p).run t acts s' t') :
    ∃ g g' : LinkedTree, g.Represents t ∧ g.Clear p.unfinished ∧
      Steps LinkedTree.Answers (a.writeTo z p).run g acts s' g' ∧ g'.Represents t' := by
  have hg := LinkedTree.represents_ofTree t
  have hasks : (a.writeTo z p).run.AsksOnly fun r => ∃ c, r = .change c ∧ c.IsNamed := by
    refine a.asksOnly_writeTo z p (fun c hc => ⟨c, rfl, ?_⟩) ⟨_, rfl, p.isNamed_unfinished⟩
    cases c with
    | rename source target => cases hc
    | _ =>
      obtain rfl := Option.some.inj hc
      exact p.isNamed_unfinished
  obtain ⟨g', hsteps, hg'⟩ := hg.steps hasks h
  exact ⟨_, g', hg, hg.clear_path _, hsteps, hg'⟩

end SymbolicPaths
