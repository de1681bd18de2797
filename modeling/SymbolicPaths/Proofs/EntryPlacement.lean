import SymbolicPaths.Proofs.CodePlacement

/-!
# Entry points and symbols of ELF files

There are two ways to the code at an address of an ELF file. A symbol leads to the section that
defines it, as the section table gives it. An entry point without symbols is looked for in the
sections with content in the file, each cut at the last address. One expects both to find the same
bytes where an address lies in one section only.

They do so for every section that has content and ends within the address space. Beyond that they
part in two ways (`Elf.entry_range_eq_iff`). A symbol finds bytes in a section without content,
which an entry point does not. And an entry point finds bytes in a section that runs past the last
address, since the cut has hidden this, while a symbol does not.
-/

namespace SymbolicPaths

namespace Elf

variable {sections : List SectionHeader} {sec : SectionHeader} {a : Address} {fileSize i : Nat}

/-- An address lies in the section with index `i` and in no other. -/
def LiesOnlyIn (sections : List SectionHeader) (i : Nat) (sec : SectionHeader) (a : Address) :
    Prop :=
  sections[i]? = some sec ∧ sec.toSection.Contains a ∧
    ∀ (j : Nat) (other : SectionHeader), sections[j]? = some other → other.toSection.Contains a →
      j = i

theorem liesOnlyIn_of_get (hsec : sections[i]? = some sec)
    (h : ∀ j : Fin sections.length, (sections.get j).toSection.Contains a ↔ j.val = i) :
    LiesOnlyIn sections i sec a := by
  obtain ⟨hi, rfl⟩ := List.getElem?_eq_some_iff.mp hsec
  refine ⟨hsec, (h ⟨i, hi⟩).mpr rfl, fun j other hother hcontains => ?_⟩
  obtain ⟨hj, rfl⟩ := List.getElem?_eq_some_iff.mp hother
  exact (h ⟨j, hj⟩).mp hcontains

/-! ### Sections cut at the last address -/

/-- The section, cut at the last address. -/
def SectionHeader.toStored (s : SectionHeader) : Section :=
  ⟨s.address, s.sizeInSpace, s.offset⟩

theorem SectionHeader.toNat_sizeInSpace (s : SectionHeader) :
    s.sizeInSpace.toNat =
      min (s.address.toNat + s.size.toNat) (UInt64.size - 1) - s.address.toNat := by
  refine UInt64.toNat_ofNat_of_lt' ?_
  have : 0 < UInt64.size := by decide
  omega

theorem SectionHeader.inSpace_toStored (s : SectionHeader) : s.toStored.InSpace := by
  have hlast := s.address.toNat_lt_size
  change s.address.toNat + s.sizeInSpace.toNat < UInt64.size
  rw [toNat_sizeInSpace]
  omega

/-- Nothing is cut off a section that ends within the address space. -/
theorem SectionHeader.toStored_of_inSpace {s : SectionHeader} (h : s.toSection.InSpace) :
    s.toStored = s.toSection := by
  have hsize : s.sizeInSpace = s.size := by
    refine UInt64.toNat_inj.mp ?_
    have hspace : s.address.toNat + s.size.toNat < UInt64.size := h
    rw [toNat_sizeInSpace]
    omega
  rw [toStored, toSection, hsize]

/-- The cut takes the last address away from a section that runs past it. -/
theorem SectionHeader.contains_toStored {s : SectionHeader} (h : ¬ s.toSection.InSpace) :
    s.toStored.Contains a ↔ s.toSection.Contains a ∧ a.toNat ≠ UInt64.size - 1 := by
  have hspace : UInt64.size ≤ s.address.toNat + s.size.toNat := Nat.not_lt.mp h
  have hlast := a.toNat_lt_size
  have hfirst := s.address.toNat_lt_size
  change s.address.toNat ≤ a.toNat ∧ a.toNat < s.address.toNat + s.sizeInSpace.toNat ↔
    (s.address.toNat ≤ a.toNat ∧ a.toNat < s.address.toNat + s.size.toNat) ∧
    a.toNat ≠ UInt64.size - 1
  rw [toNat_sizeInSpace]
  omega

theorem SectionHeader.contains_of_toStored {s : SectionHeader} (h : s.toStored.Contains a) :
    s.toSection.Contains a := by
  by_cases hspace : s.toSection.InSpace
  · rw [← toStored_of_inSpace hspace]
    exact h
  · exact ((contains_toStored hspace).mp h).1

/-! ### The two ways to code -/

/-- What an entry point finds in a section. -/
def SectionHeader.entryRange (s : SectionHeader) (a : Address) (fileSize : Nat) :
    Option FileRange :=
  if s.kind = noBits then none else s.toStored.locate a none fileSize

theorem SectionHeader.entryRange_of_not_contains {s : SectionHeader}
    (h : ¬ s.toSection.Contains a) : s.entryRange a fileSize = none := by
  unfold entryRange
  split
  · rfl
  · rw [Section.locate_none, if_neg fun hfound => h (contains_of_toStored hfound.2.1)]

theorem findSome?_storedSections (sections : List SectionHeader) (a : Address) (fileSize : Nat) :
    (storedSections sections).findSome? (fun s => s.locate a none fileSize) =
      sections.findSome? (·.entryRange a fileSize) := by
  induction sections with
  | nil => rfl
  | cons s rest ih =>
    by_cases hkind : s.kind = SectionHeader.noBits
    · have hskip : storedSections (s :: rest) = storedSections rest := by
        simp [storedSections, hkind]
      have hnone : s.entryRange a fileSize = none := if_pos hkind
      rw [hskip, ih, List.findSome?_cons, hnone]
    · have hkeep : storedSections (s :: rest) = s.toStored :: storedSections rest := by
        simp [storedSections, hkind, SectionHeader.toStored]
      have hrange : s.entryRange a fileSize = s.toStored.locate a none fileSize := if_neg hkind
      rw [hkeep, List.findSome?_cons, List.findSome?_cons, ih, hrange]

/-- The only section around an address decides what an entry point finds. -/
theorem LiesOnlyIn.findSome?_entryRange (h : LiesOnlyIn sections i sec a) :
    sections.findSome? (·.entryRange a fileSize) = sec.entryRange a fileSize := by
  obtain ⟨hsec, -, honly⟩ := h
  obtain ⟨hi, rfl⟩ := List.getElem?_eq_some_iff.mp hsec
  -- nothing is found in the sections before and behind
  have hothers (j : Nat) (hj : j < sections.length) (hne : j ≠ i) :
      sections[j].entryRange a fileSize = none := by
    refine SectionHeader.entryRange_of_not_contains fun hcontains => hne ?_
    exact honly j _ (List.getElem?_eq_getElem hj) hcontains
  have hbefore : (sections.take i).findSome? (·.entryRange a fileSize) = none := by
    rw [List.findSome?_eq_none_iff]
    intro s hs
    obtain ⟨j, hj, rfl⟩ := List.mem_take_iff_getElem.mp hs
    exact hothers j (by omega) (by omega)
  have hbehind : (sections.drop (i + 1)).findSome? (·.entryRange a fileSize) = none := by
    rw [List.findSome?_eq_none_iff]
    intro s hs
    obtain ⟨j, hj, rfl⟩ := List.mem_drop_iff_getElem.mp hs
    exact hothers (i + 1 + j) (by omega) (by omega)
  calc sections.findSome? (·.entryRange a fileSize)
      = (sections.take i ++ sections[i] :: sections.drop (i + 1)).findSome?
          (·.entryRange a fileSize) := by
        rw [List.getElem_cons_drop, List.take_append_drop]
    _ = sections[i].entryRange a fileSize := by
        rw [List.findSome?_append, hbefore, List.findSome?_cons, hbehind, Option.none_or]
        cases sections[i].entryRange a fileSize <;> rfl

/-- The code that stands in for an entry point is found by its section. -/
theorem LiesOnlyIn.range_ofEntry? (h : LiesOnlyIn sections i sec a) :
    (Symbol.ofEntry? a (storedSections sections) fileSize).bind (·.range) =
      sec.entryRange a fileSize := by
  rw [← h.findSome?_entryRange, ← findSome?_storedSections, Symbol.ofEntry?]
  cases (storedSections sections).findSome? fun s => s.locate a none fileSize <;> rfl

/-- A symbol without a size is located by the section that defines it. -/
theorem LiesOnlyIn.range_of_toSymbol? (h : LiesOnlyIn sections i sec a) {names : StringTable}
    {e : SymbolEntry} {s : Symbol} (hvalue : e.value = a) (hsize : e.size = 0)
    (hdefined : e.definedIn = i) (hs : e.toSymbol? sections names fileSize = some s) :
    s.range = sec.toSection.locate a none fileSize := by
  obtain ⟨-, hsize', hrange⟩ := SymbolEntry.of_toSymbol? hs
  rw [if_pos hsize] at hsize'
  rw [hrange, hdefined, h.1, Option.bind_some, hvalue, hsize']

/-- **When entry points and symbols lead to the same code.** Let an address lie in one section of an
ELF file only. A symbol of unknown size at that address, defined in that section, and an entry point
at that address are located alike exactly in three cases: the content would lie behind the end of
the file; or the section has content, and it ends within the address space or the address is the
last one; or the section has no content and does not end within the address space. In particular
they are located alike in every section that has content and ends within the address space. -/
theorem entry_range_eq_iff (h : LiesOnlyIn sections i sec a) {names : StringTable} {e : SymbolEntry}
    {s : Symbol} (hvalue : e.value = a) (hsize : e.size = 0) (hdefined : e.definedIn = i)
    (hs : e.toSymbol? sections names fileSize = some s) :
    s.range = (Symbol.ofEntry? a (storedSections sections) fileSize).bind (·.range) ↔
      fileSize ≤ sec.toSection.position a ∨
      sec.kind ≠ SectionHeader.noBits ∧ (sec.toSection.InSpace ∨ a.toNat = UInt64.size - 1) ∨
      sec.kind = SectionHeader.noBits ∧ ¬ sec.toSection.InSpace := by
  rw [h.range_of_toSymbol? hvalue hsize hdefined hs, h.range_ofEntry?]
  have hcontains : sec.toSection.Contains a := h.2.1
  by_cases hkind : sec.kind = SectionHeader.noBits
  · have hentry : sec.entryRange a fileSize = none := if_pos hkind
    rw [hentry, Section.locate_none_eq_none_iff]
    simp only [hkind, hcontains, ne_eq, not_true_eq_false, false_and, true_and, false_or,
      not_and_or, Nat.not_lt]
    exact or_comm
  · have hentry : sec.entryRange a fileSize = sec.toStored.locate a none fileSize := if_neg hkind
    rw [hentry]
    by_cases hspace : sec.toSection.InSpace
    · rw [SectionHeader.toStored_of_inSpace hspace]
      exact iff_of_true rfl (Or.inr (Or.inl ⟨hkind, Or.inl hspace⟩))
    · have hsymbol : sec.toSection.locate a none fileSize = none :=
        Section.locate_none_eq_none_iff.mpr fun hfound => hspace hfound.1
      have hposition : sec.toStored.position a = sec.toSection.position a := rfl
      rw [hsymbol, eq_comm, Section.locate_none_eq_none_iff, SectionHeader.contains_toStored hspace,
        hposition]
      simp only [sec.inSpace_toStored, hcontains, hkind, hspace, ne_eq, not_false_eq_true,
        true_and, false_or, false_and, or_false]
      omega

/-! ### A file where they part -/

/-- A section with content, one without, and one that runs past the last address. -/
def partedSections : List SectionHeader :=
  [⟨0, 0, 0, 0, 0, 0⟩, ⟨1, 0x1000, 0x40, 0x10, 0, 0⟩,
    ⟨SectionHeader.noBits, 0x2000, 0x40, 0x10, 0, 0⟩, ⟨1, 0xfffffffffffffff0, 0x40, 0x20, 0, 0⟩]

/-- The names of that file. -/
def partedNames : StringTable := ⟨⟨⟨#[0, 102, 0]⟩⟩⟩

/-- A function symbol of that file, of unknown size. -/
def partedSymbol (definedIn : Nat) (a : Address) : SymbolEntry :=
  ⟨1, SymbolEntry.function, definedIn, a, 0⟩

theorem entry_range_eq_iff_content :
    LiesOnlyIn partedSections 1 ⟨1, 0x1000, 0x40, 0x10, 0, 0⟩ 0x1004 ∧
    (partedSymbol 1 0x1004).toSymbol? partedSections partedNames 0x80 =
      some ⟨"f", 0x1004, none, some ⟨0x44, 0x50⟩⟩ ∧
    (Symbol.ofEntry? 0x1004 (storedSections partedSections) 0x80).bind (·.range) =
      some ⟨0x44, 0x50⟩ := by
  have honly : LiesOnlyIn partedSections 1 ⟨1, 0x1000, 0x40, 0x10, 0, 0⟩ 0x1004 :=
    liesOnlyIn_of_get rfl (by decide)
  have hs : (partedSymbol 1 0x1004).toSymbol? partedSections partedNames 0x80 =
      some ⟨"f", 0x1004, none, some ⟨0x44, 0x50⟩⟩ := by
    decide +kernel
  have hagree :=
    (entry_range_eq_iff honly rfl rfl rfl hs).mpr (.inr (.inl ⟨by decide, .inl (by decide)⟩))
  exact ⟨honly, hs, hagree.symm⟩

/-- A symbol finds bytes in the section without content and none in the section that runs past the
last address. With an entry point it is the other way round. -/
theorem entry_range_parts :
    (LiesOnlyIn partedSections 2 ⟨SectionHeader.noBits, 0x2000, 0x40, 0x10, 0, 0⟩ 0x2004 ∧
      (partedSymbol 2 0x2004).toSymbol? partedSections partedNames 0x80 =
        some ⟨"f", 0x2004, none, some ⟨0x44, 0x50⟩⟩ ∧
      Symbol.ofEntry? 0x2004 (storedSections partedSections) 0x80 = none) ∧
    (LiesOnlyIn partedSections 3 ⟨1, 0xfffffffffffffff0, 0x40, 0x20, 0, 0⟩ 0xfffffffffffffff4 ∧
      (partedSymbol 3 0xfffffffffffffff4).toSymbol? partedSections partedNames 0x80 =
        some ⟨"f", 0xfffffffffffffff4, none, none⟩ ∧
      Symbol.ofEntry? 0xfffffffffffffff4 (storedSections partedSections) 0x80 =
        some ⟨"sub_fffffffffffffff4", 0xfffffffffffffff4, none, some ⟨0x44, 0x4f⟩⟩) := by
  refine ⟨⟨?_, ?_, ?_⟩, ?_, ?_, ?_⟩
  · exact liesOnlyIn_of_get rfl (by decide)
  · decide +kernel
  · decide +kernel
  · exact liesOnlyIn_of_get rfl (by decide)
  · decide +kernel
  · decide +kernel

end Elf

end SymbolicPaths
