import SymbolicPaths.Object.Symbol
import SymbolicPaths.Proofs.Outcomes

/-!
# Following a section into the file

A section maps the addresses it contains to positions in the file, and `Section.locate` finds the
bytes of a function that way. What it answers is said in three steps (`Section.locate_eq`): the
section has to end within the address space, the address has to lie in it, and the code that begins
at its position has to reach into the file. Whatever is found lies in the section and in the file,
and begins at the position of its address (`FileRange.LiesIn`).

Numbers are exact here. On a machine they are words: one addition is checked for overflow, two
others stop at the last word, and a subtraction that would go below zero is a fault.
`Section.locateInWords` is that computation. It never faults and finds the same bytes
(`Section.locateInWords_eq`), whatever numbers the file gives for the section.
-/

namespace SymbolicPaths

namespace Section

variable {s : Section} {a : Address} {size : Option UInt64} {fileSize : Nat}

/-- Whether an address lies in a section. The end of the section may lie past the last address. -/
def Contains (s : Section) (a : Address) : Prop :=
  s.address.toNat ≤ a.toNat ∧ a.toNat < s.address.toNat + s.size.toNat

instance (s : Section) (a : Address) : Decidable (s.Contains a) :=
  inferInstanceAs (Decidable (_ ∧ _))

/-- Whether a section ends within the address space. -/
def InSpace (s : Section) : Prop :=
  s.address.toNat + s.size.toNat < UInt64.size

instance (s : Section) : Decidable s.InSpace :=
  inferInstanceAs (Decidable (_ < _))

/-- The position in the file of the content at an address. -/
def position (s : Section) (a : Address) : Nat :=
  s.offset.toNat + (a.toNat - s.address.toNat)

/-- How much of the section is left from an address on. -/
def available (s : Section) (a : Address) : Nat :=
  s.size.toNat - (a.toNat - s.address.toNat)

/-- How many bytes from an address on belong to a function of the given size. -/
def extent (s : Section) (a : Address) : Option UInt64 → Nat
  | some n => min n.toNat (s.available a)
  | none => s.available a

theorem extent_le_available (size : Option UInt64) : s.extent a size ≤ s.available a := by
  cases size with
  | none => exact Nat.le_refl _
  | some n => exact Nat.min_le_right _ _

/-- What is left of the section ends where the section does. -/
theorem position_add_available (h : s.Contains a) :
    s.position a + s.available a = s.offset.toNat + s.size.toNat := by
  have := h.1
  have := h.2
  unfold position available
  omega

theorem locate_eq (s : Section) (a : Address) (size : Option UInt64) (fileSize : Nat) :
    s.locate a size fileSize =
      if s.InSpace ∧ s.Contains a ∧
          s.position a < min (s.position a + s.extent a size) fileSize then
        some ⟨s.position a, min (s.position a + s.extent a size) fileSize⟩
      else none := by
  unfold locate
  simp only [UInt64.le_iff_toNat_le]
  by_cases hguard : s.InSpace ∧ s.Contains a
  · rw [if_pos ⟨hguard.1, hguard.2.1, hguard.2.2⟩]
    simp only [hguard.1, hguard.2, true_and]
    rfl
  · rw [if_neg fun h => hguard ⟨h.1, h.2.1, h.2.2⟩, if_neg fun h => hguard ⟨h.1, h.2.1⟩]

/-- Without a size, code runs to the end of the section. -/
theorem locate_none (s : Section) (a : Address) (fileSize : Nat) :
    s.locate a none fileSize =
      if s.InSpace ∧ s.Contains a ∧ s.position a < fileSize then
        some ⟨s.position a, min (s.offset.toNat + s.size.toNat) fileSize⟩
      else none := by
  rw [locate_eq]
  by_cases hcontains : s.Contains a
  · have hstop : s.position a + s.extent a none = s.offset.toNat + s.size.toNat :=
      position_add_available hcontains
    -- the address itself is left, so that the code is cut only by the end of the file
    have hsome : 0 < s.extent a none := by
      have := hcontains.1
      have := hcontains.2
      change 0 < s.size.toNat - (a.toNat - s.address.toNat)
      omega
    have hlt : s.position a < min (s.offset.toNat + s.size.toNat) fileSize ↔
        s.position a < fileSize := by
      omega
    simp only [hstop, hlt]
  · rw [if_neg fun h => hcontains h.2.1, if_neg fun h => hcontains h.2.1]

theorem locate_none_eq_none_iff :
    s.locate a none fileSize = none ↔ ¬ (s.InSpace ∧ s.Contains a ∧ s.position a < fileSize) := by
  rw [locate_none]
  split
  · next h => exact ⟨nofun, fun hnot => absurd h hnot⟩
  · next h => exact ⟨fun _ => h, fun _ => rfl⟩

end Section

/-- The bytes of a range are those of a function that begins at an address, in a section and in a
file of the given size. -/
structure FileRange.LiesIn (r : FileRange) (s : Section) (a : Address) (size : Option UInt64)
    (fileSize : Nat) : Prop where
  /-- There are some. -/
  start_lt_stop : r.start < r.stop
  /-- The file has them all. -/
  stop_le_fileSize : r.stop ≤ fileSize
  /-- The section ends within the address space. -/
  inSpace : s.InSpace
  /-- The address lies in the section, so that its distance from the beginning is no negative
  number. -/
  contains : s.Contains a
  /-- The range begins where the content of the address is stored. -/
  start_eq : r.start = s.offset.toNat + (a.toNat - s.address.toNat)
  /-- The section has them all. -/
  stop_le_section : r.stop ≤ s.offset.toNat + s.size.toNat
  /-- There are no more of them than the function has. -/
  length_le : ∀ n, size = some n → r.stop - r.start ≤ n.toNat

namespace Section

variable {s : Section} {a : Address} {size : Option UInt64} {fileSize : Nat} {r : FileRange}

/-- What is found lies in the section and in the file. -/
theorem liesIn_of_locate (h : s.locate a size fileSize = some r) : r.LiesIn s a size fileSize := by
  rw [locate_eq] at h
  split at h
  · next hfound =>
    obtain ⟨hspace, hcontains, hlt⟩ := hfound
    obtain rfl := Option.some.inj h
    have hextent := extent_le_available (s := s) (a := a) size
    refine ⟨hlt, Nat.min_le_right _ _, hspace, hcontains, rfl, ?_, ?_⟩
    · calc min (s.position a + s.extent a size) fileSize
          ≤ s.position a + s.extent a size := Nat.min_le_left _ _
        _ ≤ s.position a + s.available a := Nat.add_le_add_left hextent _
        _ = s.offset.toNat + s.size.toNat := position_add_available hcontains
    · rintro n rfl
      have hsize : s.extent a (some n) ≤ n.toNat := Nat.min_le_left _ _
      change min (s.position a + s.extent a (some n)) fileSize - s.position a ≤ n.toNat
      omega
  · cases h

end Section

/-! ### The computation in machine words -/

/-- The fault of a subtraction that would go below zero. -/
structure Underflow where
  deriving DecidableEq

/-- The sum of two words, if there is such a word. -/
def checkedSum (x y : UInt64) : Option UInt64 :=
  if x.toNat + y.toNat < UInt64.size then some (x + y) else none

/-- The sum of two words, or the last word if there is none. -/
def cappedSum (x y : UInt64) : UInt64 :=
  (checkedSum x y).getD (.ofNat (UInt64.size - 1))

/-- The difference of two words. -/
def difference (x y : UInt64) : Except Underflow UInt64 :=
  if y ≤ x then .ok (x - y) else .error {}

/-- The lesser of two words. -/
def lesser (x y : UInt64) : UInt64 :=
  if x ≤ y then x else y

theorem checkedSum_of_lt {x y : UInt64} (h : x.toNat + y.toNat < UInt64.size) :
    ∃ z, checkedSum x y = some z ∧ z.toNat = x.toNat + y.toNat := by
  refine ⟨x + y, if_pos h, ?_⟩
  rw [UInt64.toNat_add]
  exact Nat.mod_eq_of_lt h

@[simp] theorem toNat_cappedSum (x y : UInt64) :
    (cappedSum x y).toNat = min (x.toNat + y.toNat) (UInt64.size - 1) := by
  unfold cappedSum
  by_cases h : x.toNat + y.toNat < UInt64.size
  · obtain ⟨z, hz, hsum⟩ := checkedSum_of_lt h
    rw [hz, Option.getD_some, hsum]
    omega
  · rw [checkedSum, if_neg h, Option.getD_none]
    have hlast : (UInt64.ofNat (UInt64.size - 1)).toNat = UInt64.size - 1 := by decide
    omega

theorem difference_of_le {x y : UInt64} (h : y.toNat ≤ x.toNat) :
    ∃ z, difference x y = .ok z ∧ z.toNat = x.toNat - y.toNat :=
  ⟨x - y, if_pos (UInt64.le_iff_toNat_le.mpr h),
    UInt64.toNat_sub_of_le x y (UInt64.le_iff_toNat_le.mpr h)⟩

@[simp] theorem toNat_lesser (x y : UInt64) : (lesser x y).toNat = min x.toNat y.toNat := by
  unfold lesser
  split
  · next h => exact (Nat.min_eq_left (UInt64.le_iff_toNat_le.mp h)).symm
  · next h =>
    rw [UInt64.le_iff_toNat_le] at h
    omega

/-- The bytes of a file from a position on, as many as there are of a given number. -/
def FileRange.inWords? (start length fileSize : UInt64) : Option FileRange :=
  let stop := lesser (cappedSum start length) fileSize
  if stop ≤ start then none else some ⟨start.toNat, stop.toNat⟩

theorem FileRange.inWords?_eq (start length : UInt64) {fileSize : Nat}
    (hsize : fileSize < UInt64.size) :
    inWords? start length (.ofNat fileSize) =
      if start.toNat < min (start.toNat + length.toNat) fileSize then
        some ⟨start.toNat, min (start.toNat + length.toNat) fileSize⟩
      else none := by
  -- where the sum stops at the last word, the file ends before that
  have hstop : (lesser (cappedSum start length) (.ofNat fileSize)).toNat =
      min (start.toNat + length.toNat) fileSize := by
    rw [toNat_lesser, toNat_cappedSum, UInt64.toNat_ofNat_of_lt' hsize]
    omega
  unfold inWords?
  simp only [UInt64.le_iff_toNat_le, hstop]
  by_cases hlt : start.toNat < min (start.toNat + length.toNat) fileSize
  · rw [if_neg (Nat.not_le.mpr hlt), if_pos hlt]
  · rw [if_pos (Nat.not_lt.mp hlt), if_neg hlt]

namespace Section

/-- Finds code as `locate` does, with words for numbers. -/
def locateInWords (s : Section) (a : Address) (size : Option UInt64) (fileSize : UInt64) :
    Except Underflow (Option FileRange) := do
  match checkedSum s.address s.size with
  | none => return none
  | some sectionStop =>
    if a < s.address ∨ sectionStop ≤ a then return none
    let inside ← difference a s.address
    let start := cappedSum s.offset inside
    if fileSize ≤ start then return none
    let free ← difference s.size inside
    return FileRange.inWords? start (lesser (size.getD free) free) fileSize

theorem toNat_lesser_getD {s : Section} {a : Address} {free : UInt64}
    (h : free.toNat = s.available a) (size : Option UInt64) :
    (lesser (size.getD free) free).toNat = s.extent a size := by
  rw [toNat_lesser, h]
  cases size with
  | none => rw [Option.getD_none, h, Nat.min_self, extent]
  | some n => rw [Option.getD_some, extent]

/-- **Words suffice.** No subtraction goes below zero, and no sum that is too large for a word makes
a difference. -/
theorem locateInWords_eq (s : Section) (a : Address) (size : Option UInt64) {fileSize : Nat}
    (hsize : fileSize < UInt64.size) :
    s.locateInWords a size (.ofNat fileSize) = .ok (s.locate a size fileSize) := by
  rw [locate_eq]
  unfold locateInWords
  by_cases hspace : s.InSpace
  case neg =>
    have hnone : checkedSum s.address s.size = none := if_neg hspace
    rw [hnone, if_neg fun h => hspace h.1]
    rfl
  obtain ⟨sectionStop, hsectionStop, hsectionStopNat⟩ := checkedSum_of_lt hspace
  have hguard : (a < s.address ∨ sectionStop ≤ a) ↔ ¬ s.Contains a := by
    rw [UInt64.lt_iff_toNat_lt, UInt64.le_iff_toNat_le, hsectionStopNat, Contains]
    omega
  rw [hsectionStop]
  by_cases hcontains : s.Contains a
  case neg =>
    rw [if_neg fun h => hcontains h.2.1]
    simp only [if_pos (hguard.mpr hcontains)]
    rfl
  -- both subtractions are of a lesser word from a greater one
  obtain ⟨inside, hinside, hinsideNat⟩ := difference_of_le hcontains.1
  have hinsideLe : inside.toNat ≤ s.size.toNat := by
    have := hcontains.2
    omega
  obtain ⟨free, hfree, hfreeNat⟩ := difference_of_le hinsideLe
  have hleft : free.toNat = s.available a := by
    rw [hfreeNat, hinsideNat, available]
  simp only [if_neg (not_not_intro hcontains ∘ hguard.mp), hinside, hfree, ok_bind, hspace,
    hcontains, true_and]
  have hstart : (cappedSum s.offset inside).toNat = min (s.position a) (UInt64.size - 1) := by
    rw [toNat_cappedSum, hinsideNat, position]
  by_cases hpast : fileSize ≤ s.position a
  · have hcapped : UInt64.ofNat fileSize ≤ cappedSum s.offset inside := by
      rw [UInt64.le_iff_toNat_le, UInt64.toNat_ofNat_of_lt' hsize, hstart]
      omega
    rw [if_pos hcapped, if_neg (by omega)]
    rfl
  · have hexact : (cappedSum s.offset inside).toNat = s.position a := by
      rw [hstart]
      omega
    have hbefore : ¬ UInt64.ofNat fileSize ≤ cappedSum s.offset inside := by
      rw [UInt64.le_iff_toNat_le, UInt64.toNat_ofNat_of_lt' hsize, hexact]
      exact hpast
    rw [if_neg hbefore, FileRange.inWords?_eq _ _ hsize, toNat_lesser_getD hleft, hexact]
    rfl

end Section

end SymbolicPaths
