import SymbolicPaths.Proofs.ScriptRuns

/-!
# Trees with links

In a `LinkedTree` a file can stand at several locations, and a symbolic link leads to another path.
A path is followed as in a tree of files, but a link on the way is replaced by the path that it
holds (`follow`). Operations that work on what is in a file follow a link at the end of their path
too (`landing`); moving and removing work on what stands at the path itself (`place`).

Where a path leads depends on directories and links only (`SameWays.place_eq`,
`SameWays.landing_eq`), so that operations on files do not change it. An operation on a path that is
`Clear` of links changes nothing but the file there (`Beside.apply`).
-/

namespace SymbolicPaths

/-- What stands at a location. Files are told apart by numbers. -/
inductive Entry where
  | file (number : Nat)
  | directory
  | link (target : Path)
  deriving DecidableEq

/-- Whether a file stands at a location. -/
def Entry.isFile : Entry → Bool
  | .file _ => true
  | _ => false

/-- What there is to see at a location. -/
inductive LinkedNode where
  | file (content : List UInt8)
  | directory
  | link (target : Path)
  deriving DecidableEq

/-- Whether a node is a file, so that no path leads through it. -/
def LinkedNode.isFile : LinkedNode → Bool
  | .file _ => true
  | _ => false

/-- Files that may stand at several locations, directories, and symbolic links. -/
structure LinkedTree where
  /-- What there is below the root. -/
  entries : Location → Option Entry
  /-- What each file holds. -/
  contents : Nat → List UInt8
  /-- Where relative paths start. -/
  current : Location
  /-- The number of the next file that is made. -/
  next : Nat
  fresh : ∀ l n, entries l = some (.file n) → n < next

namespace LinkedTree

/-- What stands at a location; at the root, a directory. -/
def entryAt (g : LinkedTree) (l : Location) : Option Entry :=
  if l = [] then some .directory else g.entries l

/-- What there is to see at a location. -/
def node? (g : LinkedTree) (l : Location) : Option LinkedNode :=
  (g.entryAt l).map fun
    | .file n => .file (g.contents n)
    | .directory => .directory
    | .link target => .link target

/-! ### Following paths -/

/-- The most links that are followed on one way. -/
def linkLimit : Nat := 40

/-- Where a path starts that is followed from a directory. -/
def start (l : Location) (p : Path) : Location :=
  if p.isAbsolute then [] else l

/-- The steps that a link stands for. After a slash at the end, only a directory will do. -/
def detour (target : Path) : List String :=
  if target.endsInSlash then target.steps ++ ["."] else target.steps

/-- Takes a step from a directory, to a location or to a link. -/
def enter (g : LinkedTree) (l : Location) (step : String) : Option (Location ⊕ Path) :=
  if g.node? l ≠ some .directory then none
  else if step = "." then some (.inl l)
  else if step = ".." then some (.inl l.dropLast)
  else if FileTree.nameLimit < step.utf8ByteSize then none
  else match g.node? (l ++ [step]) with
    | some (.link target) => some (.inr target)
    | _ => some (.inl (l ++ [step]))

/-- Takes steps, one after the other, up to a link, from where `jump` leads on. -/
def walk (g : LinkedTree) (links : Nat) (jump : Location → List String → Option (Nat × Location)) :
    Location → List String → Option (Nat × Location)
  | l, [] => some (links, l)
  | l, step :: rest =>
    match g.enter l step with
    | none => none
    | some (.inl l') => g.walk links jump l' rest
    | some (.inr target) => jump (start l target) (detour target ++ rest)

/-- Takes steps, and follows no more than a number of links. How many could still have been followed
is part of the outcome. -/
def follow (g : LinkedTree) : Nat → Location → List String → Option (Nat × Location)
  | 0 => g.walk 0 fun _ _ => none
  | links + 1 => g.walk (links + 1) (g.follow links)

/-- Whether a path ends in a name and can be followed. -/
def Followable (p : Path) : Prop :=
  p.IsNamed ∧ FileTree.demandFollowable p = .ok ()

instance (p : Path) : Decidable (Followable p) :=
  inferInstanceAs (Decidable (_ ∧ _))

/-- The location of a path itself, by the directory it is in. -/
def place (g : LinkedTree) (p : Path) : Option Location :=
  if Followable p then do
    let (_, d) ← g.follow linkLimit (start g.current p) p.folder
    if g.node? d = some .directory ∧ p.lastName.utf8ByteSize ≤ FileTree.nameLimit then
      some (d ++ [p.lastName])
    else none
  else none

/-- The location of the file that a path leads to, or would lead to if it were made. -/
def landing (g : LinkedTree) (p : Path) : Option Location :=
  if Followable p then (g.follow linkLimit (start g.current p) p.steps).map Prod.snd else none

/-- What is in the file that a path leads to. -/
def content? (g : LinkedTree) (p : Path) : Option (List UInt8) := do
  let l ← g.landing p
  match g.node? l with
  | some (.file content) => some content
  | _ => none

/-! ### Operations -/

/-- Changes what a file holds. -/
def write (g : LinkedTree) (n : Nat) (content : List UInt8) : LinkedTree :=
  { g with contents := fun m => if m = n then content else g.contents m }

/-- Makes an empty file at a location. -/
def add (g : LinkedTree) (l : Location) : LinkedTree where
  entries l' := if l' = l then some (.file g.next) else g.entries l'
  contents n := if n = g.next then [] else g.contents n
  current := g.current
  next := g.next + 1
  fresh l' n h := by
    split at h
    · obtain rfl := Entry.file.inj (Option.some.inj h)
      exact Nat.lt_succ_self _
    · exact Nat.lt_succ_of_lt (g.fresh l' n h)

/-- Takes away what stands at a location. -/
def clear (g : LinkedTree) (l : Location) : LinkedTree :=
  { g with
    entries := fun l' => if l' = l then none else g.entries l'
    fresh := by
      intro l' n h
      split at h
      · cases h
      · exact g.fresh l' n h }

/-- Moves what stands at a location to another one. -/
def move (g : LinkedTree) (old new : Location) : LinkedTree :=
  { g with
    entries := fun l => if l = new then g.entries old else if l = old then none else g.entries l
    fresh := by
      intro l n h
      split at h
      · exact g.fresh old n h
      · split at h
        · cases h
        · exact g.fresh l n h }

/-- The tree after an operation, if it can be done. Two names of one file are left alone when the
one is to be moved to the other. -/
def apply (g : LinkedTree) : FileChange → Option LinkedTree
  | .create p => do
    let l ← g.landing p
    match g.entryAt l with
    | none => some (g.add l)
    | some (.file n) => some (g.write n [])
    | some _ => none
  | .append p content => do
    let l ← g.landing p
    match g.entryAt l with
    | some (.file n) => some (g.write n (g.contents n ++ content))
    | _ => none
  | .flush p | .sync p => do
    let l ← g.landing p
    let _ ← g.entryAt l
    return g
  | .rename source target => do
    let old ← g.place source
    let new ← g.place target
    match g.entryAt old with
    | none | some .directory => none
    | some e =>
      if g.entryAt new = some .directory then none
      else if old = new ∨ e.isFile ∧ g.entryAt new = some e then some g
      else some (g.move old new)
  | .remove p => do
    let l ← g.place p
    match g.entryAt l with
    | none | some .directory => none
    | some _ => some (g.clear l)

/-! ### What follows from the definitions -/

variable {g g' g₁ g₂ : LinkedTree} {l l' : Location} {p r : Path}

theorem node?_eq_file {content : List UInt8} :
    g.node? l = some (.file content) ↔
    ∃ n, g.entryAt l = some (.file n) ∧ g.contents n = content := by
  unfold node?
  cases g.entryAt l with
  | none => simp
  | some e => cases e <;> simp

theorem node?_eq_directory : g.node? l = some .directory ↔ g.entryAt l = some .directory := by
  unfold node?
  cases g.entryAt l with
  | none => simp
  | some e => cases e <;> simp

theorem node?_eq_none : g.node? l = none ↔ g.entryAt l = none := by
  unfold node?
  cases g.entryAt l <;> simp

theorem follow_nil (links : Nat) : g.follow links l [] = some (links, l) := by
  cases links <;> rfl

theorem follow_cons_of_enter {step : String} (links : Nat) (rest : List String)
    (h : g.enter l step = some (.inl l')) :
    g.follow links l (step :: rest) = g.follow links l' rest := by
  cases links <;> simp only [follow, walk, h]

theorem follow_cons_of_none {step : String} (links : Nat) (rest : List String)
    (h : g.enter l step = none) : g.follow links l (step :: rest) = none := by
  cases links <;> simp only [follow, walk, h]

/-- Steps are taken one after the other. -/
theorem follow_append (links : Nat) (l : Location) (steps more : List String) :
    g.follow links l (steps ++ more) =
      (g.follow links l steps).bind fun found => g.follow found.1 found.2 more := by
  -- outside, the number of links that may be followed; inside, the steps up to the next link
  induction links generalizing l steps with
  | zero =>
    induction steps generalizing l with
    | nil => rfl
    | cons step rest ih =>
      rw [List.cons_append, follow, walk, walk]
      cases g.enter l step with
      | none => rfl
      | some x =>
        cases x with
        | inl l' => exact ih l'
        | inr target => rfl
  | succ links ihlinks =>
    induction steps generalizing l with
    | nil => rfl
    | cons step rest ih =>
      rw [List.cons_append, follow, walk, walk]
      cases g.enter l step with
      | none => rfl
      | some x =>
        cases x with
        | inl l' => exact ih l'
        | inr target =>
          dsimp only
          rw [← List.append_assoc, ihlinks]

theorem enter_name {step : String} (hd : g.node? l = some .directory)
    (hname : step ≠ "." ∧ step ≠ "..") (hshort : step.utf8ByteSize ≤ FileTree.nameLimit)
    (hlink : ∀ target, g.node? (l ++ [step]) ≠ some (.link target)) :
    g.enter l step = some (.inl (l ++ [step])) := by
  rw [enter, if_neg (not_not_intro hd), if_neg hname.1, if_neg hname.2, if_neg (by omega)]
  split
  · next target htarget => exact absurd htarget (hlink target)
  · rfl

/-- A step needs a directory, and a name must not be too long. -/
theorem enter_refused {step : String} (hname : step ≠ "." ∧ step ≠ "..")
    (h : ¬ (g.node? l = some .directory ∧ step.utf8ByteSize ≤ FileTree.nameLimit)) :
    g.enter l step = none := by
  unfold enter
  by_cases hd : g.node? l = some .directory
  · rw [if_neg (not_not_intro hd), if_neg hname.1, if_neg hname.2, if_pos]
    exact Nat.lt_of_not_le fun hshort => h ⟨hd, hshort⟩
  · rw [if_pos hd]

theorem place_eq_some : g.place p = some l ↔
    Followable p ∧ p.lastName.utf8ByteSize ≤ FileTree.nameLimit ∧
      ∃ links d, g.follow linkLimit (start g.current p) p.folder = some (links, d) ∧
        g.node? d = some .directory ∧ l = d ++ [p.lastName] := by
  unfold place
  by_cases hp : Followable p
  · rw [if_pos hp]
    cases hfollow : g.follow linkLimit (start g.current p) p.folder with
    | none => simp
    | some found =>
      obtain ⟨links, d⟩ := found
      simp [hp]
      grind
  · simp [hp]

theorem ne_nil_of_place (h : g.place p = some l) : l ≠ [] := by
  obtain ⟨-, -, links, d, -, -, rfl⟩ := place_eq_some.mp h
  simp

/-- Where there is no link at a path, it leads to its own location. -/
theorem landing_eq_place (h : ∀ l target, g.place p = some l → g.node? l ≠ some (.link target)) :
    g.landing p = g.place p := by
  by_cases hp : Followable p
  · have hname := hp.1.lastName_ne
    rw [landing, place, if_pos hp, if_pos hp, hp.1.steps_eq_append, follow_append]
    cases hfollow : g.follow linkLimit (start g.current p) p.folder with
    | none => rfl
    | some found =>
      obtain ⟨links, d⟩ := found
      dsimp only [Option.bind_eq_bind, Option.bind_some]
      by_cases hd : g.node? d = some .directory ∧ p.lastName.utf8ByteSize ≤ FileTree.nameLimit
      · have hplace : g.place p = some (d ++ [p.lastName]) :=
          place_eq_some.mpr ⟨hp, hd.2, links, d, hfollow, hd.1, rfl⟩
        rw [follow_cons_of_enter links [] (enter_name hd.1 hname hd.2 (h _ · hplace)), follow_nil,
          if_pos hd]
        rfl
      · rw [follow_cons_of_none links [] (enter_refused hname hd), if_neg hd]
        rfl
  · rw [landing, place, if_neg hp, if_neg hp]

/-- What a path leads to where there is no link at it. -/
theorem content?_eq (h : ∀ l target, g.place p = some l → g.node? l ≠ some (.link target)) :
    g.content? p = (g.place p).bind fun l =>
      match g.node? l with
      | some (.file content) => some content
      | _ => none := by
  rw [content?, landing_eq_place h]
  rfl

/-! ### Trees that differ in files only -/

/-- `g'` has the directories and the links of `g`. -/
structure SameWays (g g' : LinkedTree) : Prop where
  current : g'.current = g.current
  ways : ∀ l n, n.isFile = false → (g'.node? l = some n ↔ g.node? l = some n)

namespace SameWays

theorem refl (g : LinkedTree) : SameWays g g :=
  ⟨rfl, fun _ _ _ => Iff.rfl⟩

theorem trans (h : SameWays g g₁) (h' : SameWays g₁ g₂) : SameWays g g₂ :=
  ⟨h'.current.trans h.current, fun l n hn => (h'.ways l n hn).trans (h.ways l n hn)⟩

theorem enter_eq (h : SameWays g g') (l : Location) (step : String) :
    g'.enter l step = g.enter l step := by
  have hlink (target : Path) := h.ways (l ++ [step]) (.link target) rfl
  unfold enter
  simp only [ne_eq, h.ways l .directory rfl]
  congr 4
  split
  · next target htarget => rw [(hlink target).mp htarget]
  · next hnot =>
    split
    · next target htarget => exact absurd ((hlink target).mpr htarget) (hnot target)
    · rfl

theorem walk_eq (h : SameWays g g') (links : Nat)
    (jump : Location → List String → Option (Nat × Location)) (l : Location)
    (steps : List String) : g'.walk links jump l steps = g.walk links jump l steps := by
  induction steps generalizing l with
  | nil => rfl
  | cons step rest ih =>
    rw [walk, walk, h.enter_eq]
    cases g.enter l step with
    | none => rfl
    | some x =>
      cases x with
      | inl l' => exact ih l'
      | inr target => rfl

/-- Where steps lead depends on directories and links only. -/
theorem follow_eq (h : SameWays g g') (links : Nat) : g'.follow links = g.follow links := by
  induction links with
  | zero =>
    funext l steps
    exact h.walk_eq 0 _ l steps
  | succ links ih =>
    funext l steps
    rw [follow, follow, ih]
    exact h.walk_eq _ _ l steps

theorem place_eq (h : SameWays g g') (p : Path) : g'.place p = g.place p := by
  simp only [place, h.follow_eq, h.current, h.ways _ .directory rfl]

theorem landing_eq (h : SameWays g g') (p : Path) : g'.landing p = g.landing p := by
  rw [landing, landing, h.follow_eq, h.current]

/-- A path that leads to what has not changed. -/
theorem content?_eq (h : SameWays g g') (hp : ∀ l, g.landing p = some l → g'.node? l = g.node? l) :
    g'.content? p = g.content? p := by
  rw [content?, content?, h.landing_eq]
  cases hl : g.landing p with
  | none => rfl
  | some l => rw [Option.bind_eq_bind, Option.bind_some, Option.bind_some, hp l hl]

end SameWays

/-! ### What operations do -/

theorem create_eq_some : g.apply (.create p) = some g' ↔
    ∃ l, g.landing p = some l ∧ (g.entryAt l = none ∧ g' = g.add l ∨
      ∃ n, g.entryAt l = some (.file n) ∧ g' = g.write n []) := by
  simp only [apply, Option.bind_eq_bind, Option.bind_eq_some_iff]
  refine exists_congr fun l => and_congr_right fun _ => ?_
  cases he : g.entryAt l with
  | none => simp [eq_comm]
  | some e => cases e <;> simp [eq_comm]

theorem append_eq_some {content : List UInt8} : g.apply (.append p content) = some g' ↔
    ∃ l, g.landing p = some l ∧
      ∃ n, g.entryAt l = some (.file n) ∧ g' = g.write n (g.contents n ++ content) := by
  simp only [apply, Option.bind_eq_bind, Option.bind_eq_some_iff]
  refine exists_congr fun l => and_congr_right fun _ => ?_
  cases he : g.entryAt l with
  | none => simp
  | some e => cases e <;> simp [eq_comm]

theorem flush_eq_some : g.apply (.flush p) = some g' ↔
    (∃ l, g.landing p = some l ∧ ∃ e, g.entryAt l = some e) ∧ g' = g := by
  simp only [apply, Option.bind_eq_bind, Option.bind_eq_some_iff]
  grind

theorem rename_eq_some {source target : Path} (h : g.apply (.rename source target) = some g') :
    ∃ old new e, g.place source = some old ∧ g.place target = some new ∧
      g.entryAt old = some e ∧ e ≠ .directory ∧ g.entryAt new ≠ some .directory ∧
      (g' = g ∧ (old = new ∨ g.entryAt new = some e) ∨ g' = g.move old new) := by
  simp only [apply, Option.bind_eq_bind, Option.bind_eq_some_iff] at h
  obtain ⟨old, hold, new, hnew, h⟩ := h
  cases he : g.entryAt old with
  | none => simp [he] at h
  | some e =>
    have hrest (h : (if g.entryAt new = some .directory then none
        else if old = new ∨ e.isFile ∧ g.entryAt new = some e then some g
        else some (g.move old new)) = some g') :
        g.entryAt new ≠ some .directory ∧
          (g' = g ∧ (old = new ∨ g.entryAt new = some e) ∨ g' = g.move old new) := by
      grind
    cases e with
    | directory => simp [he] at h
    | file n =>
      rw [he] at h
      exact ⟨old, new, _, hold, hnew, he, by simp, hrest h⟩
    | link target =>
      rw [he] at h
      exact ⟨old, new, _, hold, hnew, he, by simp, hrest h⟩

theorem remove_eq_some : g.apply (.remove p) = some g' ↔
    ∃ l, g.place p = some l ∧ g.entryAt l ≠ none ∧ g.entryAt l ≠ some .directory ∧
      g' = g.clear l := by
  simp only [apply, Option.bind_eq_bind, Option.bind_eq_some_iff]
  refine exists_congr fun l => and_congr_right fun _ => ?_
  cases he : g.entryAt l with
  | none => simp
  | some e => cases e <;> simp [eq_comm]

theorem entryAt_of_ne (h : l ≠ []) : g.entryAt l = g.entries l :=
  if_neg h

theorem entryAt_write (n : Nat) (content : List UInt8) (l : Location) :
    (g.write n content).entryAt l = g.entryAt l :=
  rfl

theorem node?_write_of_ne {n : Nat} {content : List UInt8} (h : g.entryAt l ≠ some (.file n)) :
    (g.write n content).node? l = g.node? l := by
  rw [node?, node?, entryAt_write]
  cases he : g.entryAt l with
  | none => rfl
  | some e =>
    cases e with
    | directory | link target => rfl
    | file m =>
      have hm : m ≠ n := by
        rintro rfl
        exact h he
      simp only [Option.map_some, write, if_neg hm]

theorem entryAt_add (h : l ≠ []) (l' : Location) :
    (g.add l).entryAt l' = if l' = l then some (.file g.next) else g.entryAt l' := by
  by_cases hl : l' = []
  · subst hl
    rw [if_neg h.symm]
    rfl
  · rw [entryAt_of_ne hl, entryAt_of_ne hl]
    rfl

theorem node?_add_of_ne (h : l ≠ []) (hl : l' ≠ l) : (g.add l).node? l' = g.node? l' := by
  rw [node?, node?, entryAt_add h, if_neg hl]
  cases he : g.entryAt l' with
  | none => rfl
  | some e =>
    cases e with
    | directory | link target => rfl
    | file n =>
      -- the new file has a number of its own
      have hn : n ≠ g.next := by
        refine Nat.ne_of_lt (g.fresh l' n ?_)
        rw [← he, entryAt_of_ne]
        rintro rfl
        cases he
      simp only [Option.map_some, add, if_neg hn]

theorem entryAt_clear (h : l ≠ []) (l' : Location) :
    (g.clear l).entryAt l' = if l' = l then none else g.entryAt l' := by
  by_cases hl : l' = []
  · subst hl
    rw [if_neg h.symm]
    rfl
  · rw [entryAt_of_ne hl, entryAt_of_ne hl]
    rfl

theorem node?_clear_of_ne (h : l ≠ []) (hl : l' ≠ l) : (g.clear l).node? l' = g.node? l' := by
  rw [node?, node?, entryAt_clear h, if_neg hl]
  rfl

theorem entryAt_move {old new : Location} (hold : old ≠ []) (hnew : new ≠ []) (l : Location) :
    (g.move old new).entryAt l =
      if l = new then g.entryAt old else if l = old then none else g.entryAt l := by
  by_cases hl : l = []
  · subst hl
    rw [if_neg hnew.symm, if_neg hold.symm]
    rfl
  · rw [entryAt_of_ne hl, entryAt_of_ne hl, entryAt_of_ne hold]
    rfl

theorem node?_move {old new : Location} (hold : old ≠ []) (hnew : new ≠ []) (l : Location) :
    (g.move old new).node? l =
      if l = new then g.node? old else if l = old then none else g.node? l := by
  rw [node?, entryAt_move hold hnew]
  split
  · rfl
  · split <;> rfl

/-! ### Operations on a path that is clear of links -/

/-- No symbolic link stands at a path, and a file there stands nowhere else. -/
structure Clear (g : LinkedTree) (r : Path) : Prop where
  noLink : ∀ l target, g.place r = some l → g.node? l ≠ some (.link target)
  oneName : ∀ l n l', g.place r = some l → g.entryAt l = some (.file n) →
    g.entryAt l' = some (.file n) → l' = l

/-- `g'` is `g` but for what stands at a path, where there is nothing but a file of its own. -/
structure Beside (r : Path) (g g' : LinkedTree) : Prop where
  sameWays : SameWays g g'
  others : ∀ l, g.place r ≠ some l → g'.node? l = g.node? l
  clear : g'.Clear r

namespace Beside

theorem refl (h : g.Clear r) : Beside r g g :=
  ⟨.refl g, fun _ _ => rfl, h⟩

/-- What stands at the path is replaced by something that no path leads through. -/
theorem step (h : Beside r g g₁) (hl : g₁.place r = some l) (hcurrent : g₂.current = g₁.current)
    (hothers : ∀ l', l' ≠ l → g₂.node? l' = g₁.node? l')
    (hfile₁ : ∀ n, g₁.node? l = some n → n.isFile) (hfile₂ : ∀ n, g₂.node? l = some n → n.isFile)
    (hname : ∀ n l', g₂.entryAt l = some (.file n) → g₂.entryAt l' = some (.file n) → l' = l) :
    Beside r g g₂ := by
  have hways : SameWays g₁ g₂ := by
    refine ⟨hcurrent, fun l' n hn => ?_⟩
    by_cases hl' : l' = l
    · subst hl'
      constructor
      · intro heq
        rw [hfile₂ n heq] at hn
        cases hn
      · intro heq
        rw [hfile₁ n heq] at hn
        cases hn
    · rw [hothers l' hl']
  rw [← hways.place_eq] at hl
  refine ⟨h.sameWays.trans hways, fun l' hl' => ?_, fun l' target hl' heq => ?_,
    fun l' n l'' hl' => ?_⟩
  · rw [hothers, h.others l' hl']
    rintro rfl
    rw [← h.sameWays.place_eq, ← hways.place_eq] at hl'
    exact hl' hl
  · obtain rfl : l = l' := Option.some.inj (hl.symm.trans hl')
    cases hfile₂ _ heq
  · obtain rfl : l = l' := Option.some.inj (hl.symm.trans hl')
    exact hname n l''

/-- Changing what the file at the path holds. -/
theorem write {n : Nat} (h : Beside r g g₁) (hl : g₁.place r = some l)
    (hn : g₁.entryAt l = some (.file n)) (content : List UInt8) :
    Beside r g (g₁.write n content) := by
  have hfile (g₂ : LinkedTree) (h₂ : g₂.entryAt l = some (.file n)) (x : LinkedNode)
      (hx : g₂.node? l = some x) : x.isFile := by
    rw [node?_eq_file.mpr ⟨n, h₂, rfl⟩] at hx
    obtain rfl := Option.some.inj hx
    rfl
  refine h.step hl rfl (fun l' hl' => ?_) (hfile g₁ hn) (hfile _ hn) fun m l' hm hm' => ?_
  · exact node?_write_of_ne fun hn' => hl' (h.clear.oneName l n l' hl hn hn')
  · exact h.clear.oneName l m l' hl hm hm'

/-- Making a file at the path. -/
theorem add (h : Beside r g g₁) (hl : g₁.place r = some l) (hn : g₁.entryAt l = none) :
    Beside r g (g₁.add l) := by
  have hne := ne_nil_of_place hl
  have hself : (g₁.add l).entryAt l = some (.file g₁.next) := by
    rw [entryAt_add hne, if_pos rfl]
  refine h.step hl rfl (fun l' hl' => node?_add_of_ne hne hl') (fun x hx => ?_) (fun x hx => ?_)
    fun m l' hm hm' => ?_
  · rw [node?_eq_none.mpr hn] at hx
    cases hx
  · rw [node?_eq_file.mpr ⟨_, hself, rfl⟩] at hx
    obtain rfl := Option.some.inj hx
    rfl
  · obtain rfl := Entry.file.inj (Option.some.inj (hself.symm.trans hm))
    by_contra hl'
    rw [entryAt_add hne, if_neg hl'] at hm'
    have hne' : l' ≠ [] := by
      rintro rfl
      cases hm'
    rw [entryAt_of_ne hne'] at hm'
    exact Nat.lt_irrefl _ (g₁.fresh l' _ hm')

/-- Taking away what stands at the path. -/
theorem remove (h : Beside r g g₁) (hl : g₁.place r = some l)
    (hn : g₁.entryAt l ≠ some .directory) : Beside r g (g₁.clear l) := by
  have hne := ne_nil_of_place hl
  have hself : (g₁.clear l).entryAt l = none := by
    rw [entryAt_clear hne, if_pos rfl]
  refine h.step hl rfl (fun l' hl' => node?_clear_of_ne hne hl') (fun x hx => ?_) (fun x hx => ?_)
    fun m l' hm => ?_
  · cases x with
    | file content => rfl
    | directory => exact absurd (node?_eq_directory.mp hx) hn
    | link target => exact absurd hx (h.clear.noLink l target hl)
  · rw [node?_eq_none.mpr hself] at hx
    cases hx
  · rw [hself] at hm
    cases hm

/-- **An operation on a path that is clear of links changes nothing but the file there.** -/
theorem apply {c : FileChange} (h : Beside r g g₁) (hc : c.path? = some r)
    (happly : g₁.apply c = some g₂) : Beside r g g₂ := by
  have hlanding := landing_eq_place h.clear.noLink
  cases c with
  | rename source target => cases hc
  | create p =>
    obtain rfl := Option.some.inj hc
    obtain ⟨l, hl, ⟨hn, rfl⟩ | ⟨n, hn, rfl⟩⟩ := create_eq_some.mp happly
    · exact h.add (hlanding.symm.trans hl) hn
    · exact h.write (hlanding.symm.trans hl) hn []
  | append p content =>
    obtain rfl := Option.some.inj hc
    obtain ⟨l, hl, n, hn, rfl⟩ := append_eq_some.mp happly
    exact h.write (hlanding.symm.trans hl) hn _
  | flush p | sync p =>
    obtain ⟨-, rfl⟩ := flush_eq_some.mp happly
    exact h
  | remove p =>
    obtain rfl := Option.some.inj hc
    obtain ⟨l, hl, -, hn, rfl⟩ := remove_eq_some.mp happly
    exact h.remove hl hn

end Beside

/-! ### A file that is written and moved -/

/-- The file at a path holds a content. -/
def Holds (r : Path) (g : LinkedTree) (content : List UInt8) : Prop :=
  ∃ l, g.place r = some l ∧ g.node? l = some (.file content)

section

variable {content before : List UInt8}

theorem Beside.holds_write {n : Nat} (h : Beside r g g₁) (hl : g₁.place r = some l)
    (hn : g₁.entryAt l = some (.file n)) (content : List UInt8) :
    Holds r (g₁.write n content) content := by
  refine ⟨l, ?_, node?_eq_file.mpr ⟨n, hn, if_pos rfl⟩⟩
  rw [(h.write hl hn content).sameWays.place_eq, ← h.sameWays.place_eq, hl]

theorem Beside.holds_create (h : Beside r g g₁) (happly : g₁.apply (.create r) = some g₂) :
    Holds r g₂ [] := by
  have hlanding := landing_eq_place h.clear.noLink
  obtain ⟨l, hl, ⟨hn, rfl⟩ | ⟨n, hn, rfl⟩⟩ := create_eq_some.mp happly
  · rw [hlanding] at hl
    refine ⟨l, ?_, node?_eq_file.mpr ⟨g₁.next, ?_, if_pos rfl⟩⟩
    · rw [(h.add hl hn).sameWays.place_eq, ← h.sameWays.place_eq, hl]
    · rw [entryAt_add (ne_nil_of_place hl), if_pos rfl]
  · exact h.holds_write (hlanding.symm.trans hl) hn []

theorem Beside.holds_append (h : Beside r g g₁) (hbefore : Holds r g₁ before)
    (happly : g₁.apply (.append r content) = some g₂) : Holds r g₂ (before ++ content) := by
  have hlanding := landing_eq_place h.clear.noLink
  obtain ⟨l, hl, n, hn, rfl⟩ := append_eq_some.mp happly
  rw [hlanding] at hl
  obtain ⟨l', hl', hnode⟩ := hbefore
  obtain rfl : l = l' := Option.some.inj (hl.symm.trans hl')
  obtain ⟨m, hm, rfl⟩ := node?_eq_file.mp hnode
  obtain rfl := Entry.file.inj (Option.some.inj (hn.symm.trans hm))
  exact h.holds_write hl hn _

/-- A path with a longer name has another location. -/
theorem place_ne_of_append {s : String} (hs : '/' ∉ s.toList) (hne : s.toList ≠ [])
    (h : g.place p = some l) (h' : g.place (p.append s) = some l') : l ≠ l' := by
  obtain ⟨-, -, -, d, -, -, rfl⟩ := place_eq_some.mp h
  obtain ⟨-, -, -, d', -, -, rfl⟩ := place_eq_some.mp h'
  intro heq
  obtain ⟨-, hname⟩ := List.append_inj' heq rfl
  have hending : p.ending = p.ending ++ s.toList := by
    rw [← Path.ending_append hs]
    exact String.ofList_injective (List.singleton_inj.mp hname)
  exact hne (List.self_eq_append_right.mp hending)

/-- What `g'` is like when the file at a path has been moved to another one. -/
structure MovedTo (g g' : LinkedTree) (old new : Location) (content : List UInt8) : Prop where
  current : g'.current = g.current
  gone : g'.node? old = none
  come : g'.node? new = some (.file content)
  others : ∀ l, l ≠ old → l ≠ new → g'.node? l = g.node? l

/-- The ways are the same, unless the file has taken the place of a link. -/
theorem MovedTo.sameWays {old new : Location} (h : MovedTo g g' old new content)
    (hold : ∀ n, g.node? old = some n → n.isFile) (hnew : ∀ n, g.node? new = some n → n.isFile) :
    SameWays g g' := by
  refine ⟨h.current, fun l n hn => ?_⟩
  by_cases hlold : l = old
  · subst hlold
    rw [h.gone]
    constructor
    · intro heq
      cases heq
    · intro heq
      rw [hold n heq] at hn
      cases hn
  by_cases hlnew : l = new
  · subst hlnew
    rw [h.come]
    constructor
    · intro heq
      obtain rfl := Option.some.inj heq
      cases hn
    · intro heq
      rw [hnew n heq] at hn
      cases hn
  · rw [h.others l hlold hlnew]

/-- **A file that stands nowhere else is moved as a whole.** -/
theorem Beside.movedTo {s : String} (hs : '/' ∉ s.toList) (hne : s.toList ≠ [])
    (h : Beside (p.append s) g g₁) (hholds : Holds (p.append s) g₁ content)
    (happly : g₁.apply (.rename (p.append s) p) = some g') :
    ∃ old new, g.place (p.append s) = some old ∧ g.place p = some new ∧
      (∀ n, g.node? old = some n → n.isFile) ∧ g.node? new ≠ some .directory ∧
      MovedTo g g' old new content := by
  obtain ⟨old, new, e, hold, hnew, he, -, hdirectory, heither⟩ := rename_eq_some happly
  have hapart : new ≠ old := place_ne_of_append hs hne hnew hold
  obtain ⟨l, hl, hcontent⟩ := hholds
  obtain rfl : old = l := Option.some.inj (hold.symm.trans hl)
  obtain ⟨n, hn, -⟩ := node?_eq_file.mp hcontent
  obtain rfl : e = .file n := Option.some.inj (he.symm.trans hn)
  obtain rfl : g' = g₁.move old new := by
    obtain ⟨-, rfl | hsame⟩ | hmove := heither
    · exact absurd rfl hapart
    · exact absurd (h.clear.oneName old n new hold hn hsame) hapart
    · exact hmove
  have hnode := node?_move (g := g₁) (ne_nil_of_place hold) (ne_nil_of_place hnew)
  rw [h.sameWays.place_eq] at hold hnew
  refine ⟨old, new, hold, hnew, fun x hx => ?_, ?_, h.sameWays.current, ?_, ?_,
    fun l hlold hlnew => ?_⟩
  · by_contra hfile
    rw [← h.sameWays.ways old x (by simpa using hfile), hcontent] at hx
    obtain rfl := Option.some.inj hx
    exact hfile rfl
  · rwa [ne_eq, ← h.sameWays.ways new .directory rfl, node?_eq_directory]
  · rw [hnode, if_neg hapart.symm, if_pos rfl]
  · rw [hnode, if_pos rfl, hcontent]
  · rw [hnode, if_neg hlnew, if_neg hlold]
    refine h.others l fun hl' => hlold ?_
    exact Option.some.inj (hl'.symm.trans hold)

end

end LinkedTree

end SymbolicPaths
