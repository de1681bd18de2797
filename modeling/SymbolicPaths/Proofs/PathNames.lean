import SymbolicPaths.Path

/-!
# Names at the end of a path

A path is divided at its last slash into a `folder` and an `ending`. Text without a slash that is
put behind a path lengthens its ending and leaves its folder alone (`folder_append`,
`ending_append`). A path whose ending is longer than `..` ends in a name (`isNamed_append`), so
where it leads is a new location in its folder, whatever the path was before.
-/

namespace SymbolicPaths.Path

/-- The steps before the last slash of a path. -/
def folder (p : Path) : List String :=
  ((pieces p.text.toList).dropLast.filter (!·.isEmpty)).map String.ofList

/-- What follows the last slash of a path. -/
def ending (p : Path) : List Char :=
  (pieces p.text.toList).getLastD []

theorem pieces_cons (c : Char) (cs : List Char) :
    ∃ piece more, pieces cs = piece :: more ∧
      pieces (c :: cs) = if c = '/' then [] :: piece :: more else (c :: piece) :: more := by
  have hcons (cs : List Char) : ∃ piece more, pieces cs = piece :: more := by
    fun_induction pieces cs with
    | case1 => exact ⟨_, _, rfl⟩
    | case2 => exact ⟨_, _, rfl⟩
    | case3 => exact ⟨_, _, rfl⟩
    | case4 => exact ⟨_, _, rfl⟩
  obtain ⟨piece, more, hcs⟩ := hcons cs
  refine ⟨piece, more, hcs, ?_⟩
  by_cases hc : c = '/'
  · subst hc
    rw [if_pos rfl, pieces, hcs]
  · rw [if_neg hc, pieces, hcs]
    exact hc

theorem pieces_of_notMem {cs : List Char} (h : '/' ∉ cs) : pieces cs = [cs] := by
  induction cs with
  | nil => rfl
  | cons c rest ih =>
    obtain ⟨hc, hrest⟩ : c ≠ '/' ∧ '/' ∉ rest := by simpa [eq_comm] using h
    obtain ⟨piece, more, hpieces, hcons⟩ := pieces_cons c rest
    rw [hcons, if_neg hc]
    rw [ih hrest] at hpieces
    obtain ⟨rfl, rfl⟩ := List.cons.inj hpieces
    rfl

/-- Text without a slash goes to the last piece. -/
theorem pieces_append {added : List Char} (h : '/' ∉ added) (cs : List Char) :
    ∃ init last, pieces cs = init ++ [last] ∧ pieces (cs ++ added) = init ++ [last ++ added] := by
  induction cs with
  | nil => exact ⟨[], [], rfl, pieces_of_notMem h⟩
  | cons c rest ih =>
    obtain ⟨init, last, hrest, hmore⟩ := ih
    obtain ⟨piece, more, hpieces, hcons⟩ := pieces_cons c rest
    obtain ⟨piece', more', hpieces', hcons'⟩ := pieces_cons c (rest ++ added)
    rw [List.cons_append, hcons, hcons', ← hpieces, ← hpieces', hrest, hmore]
    rw [hrest] at hpieces
    rw [hmore] at hpieces'
    by_cases hc : c = '/'
    · rw [if_pos hc, if_pos hc]
      exact ⟨[] :: init, last, rfl, rfl⟩
    · rw [if_neg hc, if_neg hc]
      -- the character joins the first piece, which may be the last one too
      cases init with
      | nil =>
        obtain ⟨rfl, rfl⟩ := List.cons.inj hpieces
        obtain ⟨rfl, rfl⟩ := List.cons.inj hpieces'
        exact ⟨[], c :: last, rfl, rfl⟩
      | cons first init =>
        obtain ⟨rfl, rfl⟩ := List.cons.inj hpieces
        obtain ⟨rfl, rfl⟩ := List.cons.inj hpieces'
        exact ⟨(c :: first) :: init, last, rfl, rfl⟩

theorem pieces_concat (cs : List Char) : pieces (cs ++ ['/']) = pieces cs ++ [[]] := by
  induction cs with
  | nil => rfl
  | cons c rest ih =>
    obtain ⟨piece, more, hpieces, hcons⟩ := pieces_cons c rest
    obtain ⟨piece', more', hpieces', hcons'⟩ := pieces_cons c (rest ++ ['/'])
    rw [List.cons_append, hcons, hcons']
    rw [ih, hpieces, List.cons_append] at hpieces'
    obtain ⟨rfl, rfl⟩ := List.cons.inj hpieces'
    split <;> rfl

section

variable {p : Path} {s : String}

theorem steps_eq (p : Path) :
    p.steps = p.folder ++ (if p.ending = [] then [] else [String.ofList p.ending]) := by
  obtain ⟨init, last, hpieces, -⟩ := pieces_append (List.not_mem_nil) p.text.toList
  rw [steps, folder, ending, hpieces, List.filter_append, List.map_append, List.dropLast_concat,
    List.getLastD_concat]
  cases last <;> simp

theorem folder_append (h : '/' ∉ s.toList) : (p.append s).folder = p.folder := by
  obtain ⟨init, last, hpieces, happend⟩ := pieces_append h p.text.toList
  rw [folder, folder, append, String.toList_append, happend, hpieces, List.dropLast_concat,
    List.dropLast_concat]

theorem ending_append (h : '/' ∉ s.toList) : (p.append s).ending = p.ending ++ s.toList := by
  obtain ⟨init, last, hpieces, happend⟩ := pieces_append h p.text.toList
  rw [ending, ending, append, String.toList_append, happend, hpieces, List.getLastD_concat,
    List.getLastD_concat]

theorem isAbsolute_append (h : '/' ∉ s.toList) : (p.append s).isAbsolute = p.isAbsolute := by
  rw [isAbsolute, isAbsolute, append, String.toList_append]
  cases p.text.toList with
  | cons c cs => rfl
  | nil =>
    cases hs : s.toList with
    | nil => rfl
    | cons c cs =>
      have hc : c ≠ '/' := by
        rintro rfl
        exact h (hs ▸ List.mem_cons_self)
      simp [hc]

/-- Nothing follows the last slash of a path that ends in one. -/
theorem ending_of_endsInSlash (h : p.endsInSlash = true) : p.ending = [] := by
  have hlast : p.text.toList.getLast? = some '/' := by simpa [endsInSlash] using h
  obtain ⟨init, hinit⟩ := List.getLast?_eq_some_iff.mp hlast
  rw [ending, hinit, pieces_concat, List.getLastD_concat]

theorem endsInSlash_of_ending (h : p.ending = []) (htext : p.text.toList ≠ []) :
    p.endsInSlash = true := by
  obtain ⟨init, c, hinit⟩ := p.text.toList.eq_nil_or_concat.resolve_left htext
  rw [List.concat_eq_append] at hinit
  by_cases hc : c = '/'
  · rw [endsInSlash, hinit, List.getLast?_concat, hc]
    rfl
  · obtain ⟨pieces, last, -, hpieces⟩ :=
      pieces_append (by simpa [eq_comm] using hc : '/' ∉ [c]) init
    rw [ending, hinit, hpieces, List.getLastD_concat] at h
    simp at h

/-- Whether a path ends in a name, rather than in a slash, in `.` or in `..`. -/
def IsNamed (p : Path) : Prop :=
  p.ending ≠ [] ∧ p.ending ≠ ['.'] ∧ p.ending ≠ ['.', '.']

instance : Decidable p.IsNamed :=
  inferInstanceAs (Decidable (_ ∧ _ ∧ _))

/-- The name that a path ends in. -/
def lastName (p : Path) : String :=
  String.ofList p.ending

theorem toList_lastName (p : Path) : p.lastName.toList = p.ending :=
  String.toList_ofList

theorem isNamed_append (h : '/' ∉ s.toList) (hlong : 2 < s.toList.length) :
    (p.append s).IsNamed := by
  have hlength : 2 < (p.append s).ending.length := by
    rw [ending_append h, List.length_append]
    omega
  refine ⟨?_, ?_, ?_⟩ <;> (intro heq; rw [heq] at hlength; exact absurd hlength (by decide))

theorem isNamed_of_getLast? {name : String} (h : p.steps.getLast? = some name)
    (hslash : p.endsInSlash = false) (hname : name ≠ "." ∧ name ≠ "..") : p.IsNamed := by
  have hending : p.ending ≠ [] := by
    intro hending
    by_cases htext : p.text.toList = []
    · rw [steps, htext] at h
      cases h
    · rw [endsInSlash_of_ending hending htext] at hslash
      cases hslash
  rw [steps_eq, if_neg hending, List.getLast?_concat] at h
  obtain rfl := Option.some.inj h
  refine ⟨hending, ?_, ?_⟩
  · intro heq
    exact hname.1 (congrArg String.ofList heq)
  · intro heq
    exact hname.2 (congrArg String.ofList heq)

namespace IsNamed

theorem steps_eq_append (h : p.IsNamed) : p.steps = p.folder ++ [p.lastName] := by
  rw [steps_eq, if_neg h.1, lastName]

theorem endsInSlash_eq (h : p.IsNamed) : p.endsInSlash = false := by
  cases hslash : p.endsInSlash with
  | false => rfl
  | true => exact absurd (ending_of_endsInSlash hslash) h.1

theorem lastName_ne (h : p.IsNamed) : p.lastName ≠ "." ∧ p.lastName ≠ ".." := by
  constructor
  · intro heq
    exact h.2.1 (String.ofList_injective heq)
  · intro heq
    exact h.2.2 (String.ofList_injective heq)

end IsNamed

end

end SymbolicPaths.Path
