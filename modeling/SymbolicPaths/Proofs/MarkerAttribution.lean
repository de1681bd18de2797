import SymbolicPaths.Extraction

/-!
# Which instruction a statement belongs to

Intermediate code is a list of statements, some of which carry a marker, the address of an
instruction. A statement is governed by the last marker at or before it (`governor`). Attaching code
to instructions gives each instruction the texts of the statements that its address governs, in
order, and does nothing else (`InstructionMap.attach_governed`).

Attaching carries the marker in force from statement to statement. The statement about it is
therefore made with any marker in force at the beginning (`InstructionMap.getElem?_attachFrom`),
which governs what comes before the first marker (`governedFrom_cons`).
-/

namespace SymbolicPaths

/-! ### Governing markers -/

/-- The last marker at or before a position. -/
def governor (code : List Statement) (i : Nat) : Option Address :=
  ((code.take (i + 1)).filterMap (·.marker)).getLast?

/-- The texts of the statements that an address governs, in order, where `current` is the marker in
force before the first statement. -/
def governedFrom (current : Option Address) (code : List Statement) (a : Address) : List String :=
  (code.zipIdx.filter fun p => (governor code p.2).or current = some a).map (·.1.text)

/-- The texts of the statements that an address governs, in order. -/
def governed (code : List Statement) (a : Address) : List String :=
  (code.zipIdx.filter fun p => governor code p.2 = some a).map (·.1.text)

theorem governedFrom_none (code : List Statement) (a : Address) :
    governedFrom none code a = governed code a := by
  simp only [governedFrom, governed, Option.or_none]

theorem governor_cons_zero (s : Statement) (rest : List Statement) :
    governor (s :: rest) 0 = s.marker := by
  cases h : s.marker <;> simp [governor, h]

theorem governor_cons_succ (s : Statement) (rest : List Statement) (i : Nat) :
    governor (s :: rest) (i + 1) = (governor rest i).or s.marker := by
  rw [governor, governor, List.take_succ_cons]
  cases h : s.marker with
  | none => rw [List.filterMap_cons_none h, Option.or_none]
  | some a => rw [List.filterMap_cons_some h, List.getLast?_cons, Option.or_some]

/-- The first statement belongs to its own marker, or else to the one in force, which then stays in
force. -/
theorem governedFrom_cons (current : Option Address) (s : Statement) (rest : List Statement)
    (a : Address) :
    governedFrom current (s :: rest) a =
      (if s.marker.or current = some a then [s.text] else []) ++
        governedFrom (s.marker.or current) rest a := by
  -- a position in the rest is one further in the whole, where the first marker may be the last one
  -- before it
  have hshift : rest.zipIdx 1 = rest.zipIdx.map fun p => (p.1, p.2 + 1) := List.zipIdx_succ
  have hrest : ((rest.zipIdx 1).filter fun p => (governor (s :: rest) p.2).or current = some a).map
      (·.1.text) = governedFrom (s.marker.or current) rest a := by
    rw [hshift, List.filter_map, List.map_map, governedFrom]
    simp only [Function.comp_def, governor_cons_succ, Option.or_assoc]
  rw [governedFrom, List.zipIdx_cons, List.filter_cons, governor_cons_zero, ← hrest]
  by_cases h : s.marker.or current = some a
  · rw [if_pos (decide_eq_true h), if_pos h]
    rfl
  · rw [if_neg (by simpa using h), if_neg h]
    rfl

/-! ### Attaching statements -/

namespace InstructionMap

variable (m : InstructionMap)

theorem getElem?_addFragment (a b : Address) (text : String) :
    (m.addFragment a text)[b]? =
      m[b]?.map fun i => { i with fragments := i.fragments ++ if a = b then [text] else [] } := by
  rw [addFragment, Std.ExtTreeMap.getElem?_modify]
  by_cases h : a = b
  · subst h
    simp
  · simp [h]

/-- Each instruction gets what its address governs, from any marker in force on. -/
theorem getElem?_attachFrom (current : Option Address) (code : List Statement) (a : Address) :
    (m.attachFrom current code)[a]? =
      m[a]?.map fun i => { i with fragments := i.fragments ++ governedFrom current code a } := by
  -- the map and the marker in force change with each statement, so both are general
  induction code generalizing m current with
  | nil => simp [attachFrom, governedFrom]
  | cons s rest ih =>
    rw [governedFrom_cons, attachFrom]
    cases s.marker.or current with
    | none => simp [ih]
    | some b =>
      simp only [ih, getElem?_addFragment, Option.map_map, Function.comp_def, List.append_assoc,
        Option.some.injEq]

theorem getElem?_attach (code : List Statement) (a : Address) :
    (m.attach code)[a]? = m[a]?.map fun i =>
      { i with fragments := i.fragments ++ governed code a } := by
  rw [attach, getElem?_attachFrom, governedFrom_none]

theorem exists_attachFrom_append (current : Option Address) (code more : List Statement) :
    ∃ last, m.attachFrom current (code ++ more) =
      (m.attachFrom current code).attachFrom last more := by
  induction code generalizing m current with
  | nil => exact ⟨current, rfl⟩
  | cons s rest ih =>
    rw [List.cons_append, attachFrom, attachFrom]
    cases s.marker.or current with
    | none => exact ih m none
    | some a => exact ih (m.addFragment a s.text) (some a)

/-- Code that begins with a marker does not see the one in force before it. -/
theorem attachFrom_eq_attach {code : List Statement} (h : ∀ s ∈ code.head?, s.marker.isSome = true)
    (current : Option Address) : m.attachFrom current code = m.attach code := by
  cases code with
  | nil => rfl
  | cons s rest =>
    obtain ⟨a, ha⟩ := Option.isSome_iff_exists.mp (h s rfl)
    rw [attach, attachFrom, attachFrom, ha]
    rfl

/-- **Each statement goes to the instruction of its governing marker and nowhere else.** Attaching
code leaves the addresses and all else of the instructions as they are, and adds to the fragments of
each instruction the texts of the statements that its address governs, in order. So code may be
attached part by part, if each part begins with a marker. -/
theorem attach_governed (code : List Statement) :
    (∀ a, a ∈ m.attach code ↔ a ∈ m) ∧
    (∀ a : Address, (m.attach code)[a]? = m[a]?.map fun i =>
      { i with fragments := i.fragments ++ governed code a }) ∧
    ∀ more, (∀ s ∈ more.head?, s.marker.isSome = true) →
      m.attach (code ++ more) = (m.attach code).attach more := by
  refine ⟨fun a => ?_, m.getElem?_attach code, fun more hmore => ?_⟩
  · rw [← Std.ExtTreeMap.isSome_getElem?_iff_mem, ← Std.ExtTreeMap.isSome_getElem?_iff_mem,
      getElem?_attach, Option.isSome_map]
  · obtain ⟨last, hlast⟩ := m.exists_attachFrom_append none code more
    rw [attach, hlast, attachFrom_eq_attach _ hmore]
    rfl

/-- Two instructions, the first of which has a fragment already. -/
def pair : InstructionMap :=
  (ofInstructions [⟨0x10, "mov", "eax, 1"⟩, ⟨0x15, "ret", ""⟩]).addFragment 0x10 "first"

/-- Code that begins without a marker, passes through an address that has no instruction, and comes
back to the first one. -/
def winding : List Statement :=
  [⟨none, "orphan"⟩, ⟨some 0x10, "mark"⟩, ⟨none, "put"⟩, ⟨some 0x99, "lost mark"⟩, ⟨none, "lost"⟩,
    ⟨some 0x15, "end"⟩, ⟨some 0x10, "mark again"⟩, ⟨none, "put again"⟩]

theorem attach_governed_winding :
    (pair.attach winding)[(0x10 : Address)]? =
      some ⟨0x10, "mov", "eax, 1", ["first", "mark", "put", "mark again", "put again"]⟩ ∧
    (pair.attach winding)[(0x15 : Address)]? = some ⟨0x15, "ret", "", ["end"]⟩ ∧
    (pair.attach winding)[(0x99 : Address)]? = none ∧
    pair.attach (winding ++ winding.tail) = (pair.attach winding).attach winding.tail := by
  obtain ⟨-, hattach, hsplit⟩ := pair.attach_governed winding
  refine ⟨?_, ?_, ?_, hsplit winding.tail (by rintro s ⟨⟩; rfl)⟩
  all_goals
    rw [hattach]
    decide +kernel

end InstructionMap

end SymbolicPaths
