import SymbolicPaths.Text.Lowercase

/-!
# Text in lower case stays as it is

Lower-casing a text a second time changes nothing, over all of Unicode (`lowercase_lowercase`). So
wherever names are compared in lower case, a name and its lower-case form are one.

A character stays, whatever stands around it, if it is its own partner and neither `İ` nor `Σ`
(`Stays`). All characters that lower-casing writes are of this kind. For the letters of the mapping
table this is a fact about the table: the partners of a run of letters form a run again
(`partners`), and this run meets none of the table (`table_partners`). Two runs are compared by
their ends. Where upper and lower case alternate one run lies inside the other, and they are told
apart by parity (`apart`).
-/

namespace SymbolicPaths.Case

variable {run other : Nat × Nat × Nat × Int} {code : Nat}

/-! ### Runs that do not meet -/

theorem inRun_iff {first last distance : Nat} {shift : Int} :
    inRun (first, last, distance, shift) code = true ↔
      first ≤ code ∧ code ≤ last ∧ distance ∣ code - first := by
  simp only [inRun, Bool.and_eq_true, decide_eq_true_eq, beq_iff_eq, Nat.dvd_iff_mod_eq_zero,
    and_assoc]

/-- Whether all letters of a run are even or all are odd. -/
def oneParity (run : Nat × Nat × Nat × Int) : Bool :=
  let (first, last, distance, _) := run
  distance % 2 == 0 || first == last

theorem parity_of_inRun (hrun : oneParity run = true) (h : inRun run code = true) :
    code % 2 = run.1 % 2 := by
  obtain ⟨first, last, distance, shift⟩ := run
  obtain ⟨hfirst, hlast, hdistance⟩ := inRun_iff.mp h
  simp only [oneParity, Bool.or_eq_true, beq_iff_eq] at hrun
  rcases hrun with heven | hsingle
  · have htwo : 2 ∣ code - first := Nat.dvd_trans (Nat.dvd_of_mod_eq_zero heven) hdistance
    dsimp only
    omega
  · obtain rfl : code = first := by omega
    rfl

/-- Whether two runs obviously have no letter in common: one ends before the other begins, or one
has only even and the other only odd letters. -/
def apart (run other : Nat × Nat × Nat × Int) : Bool :=
  run.2.1.blt other.1 || other.2.1.blt run.1 ||
    oneParity run && oneParity other && run.1 % 2 != other.1 % 2

theorem inRun_eq_false_of_apart (hapart : apart run other = true) (h : inRun run code = true) :
    inRun other code = false := by
  refine Bool.eq_false_iff.mpr fun hmeet => ?_
  simp only [apart, Bool.or_eq_true, Bool.and_eq_true, Nat.blt_eq, bne_iff_ne] at hapart
  rcases hapart with hends | ⟨⟨hrun, hother⟩, hne⟩
  · obtain ⟨first, last, distance, shift⟩ := run
    obtain ⟨first', last', distance', shift'⟩ := other
    obtain ⟨hfirst, hlast, -⟩ := inRun_iff.mp h
    obtain ⟨hfirst', hlast', -⟩ := inRun_iff.mp hmeet
    dsimp only at hends
    omega
  · exact hne ((parity_of_inRun hrun h).symm.trans (parity_of_inRun hother hmeet))

/-! ### The partners of a run -/

/-- The run of the lower-case partners of a run of letters. -/
def partners (run : Nat × Nat × Nat × Int) : Nat × Nat × Nat × Int :=
  let (first, last, distance, shift) := run
  ((first + shift).toNat, (last + shift).toNat, distance, 0)

/-- Whether the partners of a run of letters are characters: no code point is negative, a surrogate
or too large. -/
def partnersValid (run : Nat × Nat × Nat × Int) : Bool :=
  let (first, last, _, shift) := run
  0 ≤ first + shift && (last + shift < 0xD800 || 0xDFFF < first + shift && last + shift < 0x110000)

/-- The partner of a letter is a letter of the run of partners. -/
theorem inRun_partners (hvalid : partnersValid run = true) (h : inRun run code = true) :
    inRun (partners run) (Char.ofNat ((code : Int) + run.2.2.2).toNat).toNat = true := by
  obtain ⟨first, last, distance, shift⟩ := run
  obtain ⟨hfirst, hlast, hdistance⟩ := inRun_iff.mp h
  simp only [partnersValid, Bool.and_eq_true, Bool.or_eq_true, decide_eq_true_eq] at hvalid
  have hchar : (Char.ofNat ((code : Int) + shift).toNat).toNat = ((code : Int) + shift).toNat := by
    -- the ends of the run lie on one side of the surrogates, and so does all between them
    have hcode : ((code : Int) + shift).toNat.isValidChar := by
      unfold Nat.isValidChar
      omega
    rw [Char.ofNat, dif_pos hcode]
    rfl
  rw [hchar, partners, inRun_iff]
  have hsame : ((code : Int) + shift).toNat - ((first : Int) + shift).toNat = code - first := by
    omega
  rw [hsame]
  exact ⟨by omega, by omega, hdistance⟩

/-! ### Characters that stay -/

/-- Lower-casing leaves the character as it is, whatever stands around it. -/
structure Stays (c : Char) : Prop where
  ne_dotted : c ≠ 'İ'
  ne_sigma : c ≠ 'Σ'
  partner : lowercaseChar c = c

/-- The letter `İ` as a run. It has a rule of its own and is not in the mapping table. -/
def dottedRun : Nat × Nat × Nat × Int := (0x130, 0x130, 1, 0)

/-- Whether a run meets neither a run of the mapping table nor `İ`. -/
def isClear (run : Nat × Nat × Nat × Int) : Bool :=
  apart run dottedRun && lowercaseRuns.toList.all (apart run)

variable {c : Char}

theorem stays_of_isClear (hclear : isClear run = true) (h : inRun run c.toNat = true) :
    Stays c := by
  simp only [isClear, Bool.and_eq_true, Array.all_toList,
    Array.all_eq_true_iff_forall_mem] at hclear
  have hpartner : lowercaseChar c = c := by
    have hnone : lowercaseRuns.find? (inRun · c.toNat) = none := by
      rw [Array.find?_eq_none]
      intro other hother
      rw [inRun_eq_false_of_apart (hclear.2 other hother) h]
      exact Bool.false_ne_true
    unfold lowercaseChar
    rw [hnone]
  refine ⟨?_, ?_, hpartner⟩
  · rintro rfl
    exact absurd (inRun_eq_false_of_apart hclear.1 h) (by decide)
  · rintro rfl
    -- in the table `Σ` has the partner `σ`
    exact absurd hpartner (by decide +kernel)

/-- **The table.** No partner of a letter is a letter of the table, and none is `İ`. -/
theorem table_partners (h : run ∈ lowercaseRuns) :
    partnersValid run = true ∧ isClear (partners run) = true := by
  have hall : (lowercaseRuns.toList.all fun run => partnersValid run && isClear (partners run)) =
      true := by
    decide +kernel
  simp only [Array.all_toList, Array.all_eq_true_iff_forall_mem, Bool.and_eq_true] at hall
  exact hall run h

theorem stays_lowercaseChar (hdotted : c ≠ 'İ') (hsigma : c ≠ 'Σ') : Stays (lowercaseChar c) := by
  cases hfind : lowercaseRuns.find? (inRun · c.toNat) with
  | none =>
    -- neither in the table nor one of the two letters with rules of their own
    have hsame : lowercaseChar c = c := by
      unfold lowercaseChar
      rw [hfind]
    rw [hsame]
    exact ⟨hdotted, hsigma, hsame⟩
  | some run =>
    have hpartner : lowercaseChar c = Char.ofNat ((c.toNat : Int) + run.2.2.2).toNat := by
      unfold lowercaseChar
      rw [hfind]
    have hrun := Array.find?_some hfind
    obtain ⟨hvalid, hclear⟩ := table_partners (Array.mem_of_find?_eq_some hfind)
    rw [hpartner]
    exact stays_of_isClear hclear (inRun_partners hvalid hrun)

/-- Characters without upper-case letters among them: ASCII before and after its capital letters,
the combining dot, and the two forms of the small sigma. -/
def settledRuns : List (Nat × Nat × Nat × Int) :=
  [(0x00, 0x40, 1, 0), (0x5B, 0x7F, 1, 0), (0x307, 0x307, 1, 0), (0x3C2, 0x3C3, 1, 0)]

/-- Whether a character is obviously none that lower-casing changes. -/
def isSettled (c : Char) : Bool :=
  settledRuns.any (inRun · c.toNat)

theorem stays_of_isSettled (h : isSettled c = true) : Stays c := by
  have hall : settledRuns.all isClear = true := by decide +kernel
  obtain ⟨run, hmem, hrun⟩ := List.any_eq_true.mp h
  exact stays_of_isClear (List.all_eq_true.mp hall run hmem) hrun

/-! ### Texts -/

variable {before after : List Char} {d : Char}

theorem stays_of_mem_lowercaseAt (h : d ∈ lowercaseAt before c after) : Stays d := by
  unfold lowercaseAt at h
  split at h
  · have hsettled : ['i', '\u0307'].all isSettled = true := by decide
    exact stays_of_isSettled (List.all_eq_true.mp hsettled d h)
  · split at h
    · have hsettled : ['ς', 'σ'].all isSettled = true := by decide
      exact stays_of_isSettled (List.all_eq_true.mp hsettled d (by grind))
    · next hdotted hsigma =>
      rw [List.mem_singleton] at h
      rw [h]
      exact stays_lowercaseChar hdotted hsigma

theorem stays_of_mem_lowercaseFrom (h : d ∈ lowercaseFrom before after) : Stays d := by
  induction after generalizing before with
  | nil => cases h
  | cons c after ih =>
    rcases List.mem_append.mp h with h | h
    · exact stays_of_mem_lowercaseAt h
    · exact ih h

theorem lowercaseFrom_of_stays (h : ∀ c ∈ after, Stays c) : lowercaseFrom before after = after := by
  induction after generalizing before with
  | nil => rfl
  | cons c after ih =>
    obtain ⟨hdotted, hsigma, hpartner⟩ := h c List.mem_cons_self
    have hhere : lowercaseAt before c after = [c] := by
      rw [lowercaseAt, if_neg hdotted, if_neg hsigma, hpartner]
    rw [lowercaseFrom, hhere, ih fun d hd => h d (List.mem_cons_of_mem _ hd)]
    rfl

theorem lowercase_of_stays {s : String} (h : ∀ c ∈ s.toList, Stays c) : lowercase s = s := by
  rw [lowercase, lowercaseFrom_of_stays h, String.ofList_toList]

/-- **Text in lower case stays as it is.** -/
theorem lowercase_lowercase (s : String) : lowercase (lowercase s) = lowercase s := by
  refine lowercase_of_stays fun c hc => ?_
  rw [lowercase, String.toList_ofList] at hc
  exact stays_of_mem_lowercaseFrom hc

end SymbolicPaths.Case
