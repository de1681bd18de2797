import Mathlib.Data.List.Destutter
import Mathlib.Data.List.Sort
import SymbolicPaths.Loading
import SymbolicPaths.Proofs.KeyedMaps
import SymbolicPaths.Proofs.SectionLaws

/-!
# The code of every function lies in the file

The symbols of a file are put in order, one for each address, and the code of a symbol of unknown
size is ended where the next symbol begins. Whatever the file says about addresses, sizes and
sections, each range that is left lies in the section in which it was found and in the file, begins
at the position of its address, and is no longer than the symbol or the distance to the next one
(`Symbol.Arranged`, `code_inBounds`). So loading never takes bytes that are not there, and on a
machine with words for numbers no subtraction goes below zero.

Symbols are collected in a map in which the first symbol at an address stays
(`Symbol.getElem?_byAddress`). Its values are what is left of a stable sort by address when repeats
are dropped (`Symbol.values_byAddress`). They ascend strictly by address, which is what the second
pass over them needs: the distance to the next symbol is a positive number, so that a range that is
ended there keeps at least one byte (`FileRange.LiesIn.cut`).
-/

namespace SymbolicPaths

theorem FileRange.LiesIn.cut {r : FileRange} {s : Section} {a : Address} {size : Option UInt64}
    {fileSize : Nat} (h : r.LiesIn s a size fileSize) {distance : Nat} (hdistance : 0 < distance) :
    (FileRange.mk r.start (min r.stop (r.start + distance))).LiesIn s a size fileSize where
  start_lt_stop := by
    have := h.start_lt_stop
    change r.start < min r.stop (r.start + distance)
    omega
  stop_le_fileSize := Nat.le_trans (Nat.min_le_left _ _) h.stop_le_fileSize
  inSpace := h.inSpace
  contains := h.contains
  start_eq := h.start_eq
  stop_le_section := Nat.le_trans (Nat.min_le_left _ _) h.stop_le_section
  length_le := fun n hn => Nat.le_trans (Nat.sub_le_sub_right (Nat.min_le_left _ _) _)
    (h.length_le n hn)

namespace Symbol

variable {symbols : List Symbol} {s t : Symbol} {base next : Address} {fileSize : Nat}

/-! ### One symbol for each address -/

/-- The first symbol at an address counts. -/
theorem getElem?_byAddress (symbols : List Symbol) (a : Address) :
    (byAddress symbols)[a]? = symbols.find? (·.address = a) := by
  -- a symbol that is already in the map stays there
  have hfold (m : Std.ExtTreeMap Address Symbol) :
      (symbols.foldl (fun m s => m.insertIfNew s.address s) m)[a]? =
        m[a]?.or (symbols.find? (·.address = a)) := by
    induction symbols generalizing m with
    | nil => rw [List.foldl_nil, List.find?_nil, Option.or_none]
    | cons s rest ih =>
      rw [List.foldl_cons, ih, Std.ExtTreeMap.getElem?_insertIfNew, List.find?_cons]
      simp only [Std.compare_eq_iff_eq, Std.ExtTreeMap.mem_iff_isSome_getElem?]
      by_cases hs : s.address = a
      · subst hs
        cases m[s.address]? <;> simp
      · simp [hs]
  rw [byAddress, hfold, Std.ExtTreeMap.getElem?_empty, Option.none_or]

theorem keyed_byAddress (symbols : List Symbol) : Keyed (·.address) (byAddress symbols) := by
  intro a s h
  rw [getElem?_byAddress] at h
  simpa using List.find?_some h

theorem find?_of_mem_values (h : s ∈ (byAddress symbols).values) :
    symbols.find? (·.address = s.address) = some s := by
  rw [← getElem?_byAddress]
  exact (keyed_byAddress symbols).mem_values.mp h

theorem mem_addresses_byAddress {a : Address} :
    a ∈ (byAddress symbols).values.map (·.address) ↔ a ∈ symbols.map (·.address) := by
  rw [List.mem_map, List.mem_map]
  constructor
  · rintro ⟨s, hs, rfl⟩
    exact ⟨s, List.mem_of_find?_eq_some (find?_of_mem_values hs), rfl⟩
  · rintro ⟨s, hs, rfl⟩
    have hfound : (symbols.find? (·.address = s.address)).isSome = true := by
      rw [List.find?_isSome]
      exact ⟨s, hs, by simp⟩
    obtain ⟨first, hfirst⟩ := Option.isSome_iff_exists.mp hfound
    rw [← getElem?_byAddress] at hfirst
    have haddress : first.address = s.address := keyed_byAddress symbols _ _ hfirst
    refine ⟨first, (keyed_byAddress symbols).mem_values.mpr ?_, haddress⟩
    rw [haddress]
    exact hfirst

/-! ### The order of the symbols -/

/-- Whether a symbol does not come behind another one. -/
def upTo (s t : Symbol) : Bool :=
  s.address ≤ t.address

theorem upTo_trans (s t u : Symbol) (hst : s.upTo t = true) (htu : t.upTo u = true) :
    s.upTo u = true := by
  simp only [upTo, decide_eq_true_eq] at hst htu ⊢
  exact UInt64.le_trans hst htu

theorem upTo_total (s t : Symbol) : (s.upTo t || t.upTo s) = true := by
  simpa [upTo] using UInt64.le_total s.address t.address

/-- Sorting is stable: the symbols at one address stay in order. -/
theorem filter_mergeSort (symbols : List Symbol) (a : Address) :
    (symbols.mergeSort upTo).filter (·.address = a) = symbols.filter (·.address = a) := by
  have hordered : (symbols.filter (·.address = a)).Pairwise fun s t => s.upTo t = true := by
    refine List.pairwise_filter.mpr (List.pairwise_of_forall fun s t hs ht => ?_)
    simp_all [upTo]
  have hsublist := List.sublist_mergeSort upTo_trans upTo_total hordered List.filter_sublist
  have hlength := ((List.mergeSort_perm symbols upTo).filter (·.address = a)).length_eq
  have hsublist' := hsublist.filter (·.address = a)
  simp only [List.filter_filter, Bool.and_self] at hsublist'
  exact (hsublist'.eq_of_length hlength.symm).symm

/-- Whether two symbols are at different addresses. -/
abbrev Differ (s t : Symbol) : Prop :=
  s.address ≠ t.address

/-- Dropping each symbol that repeats the address before it keeps the first one at each address. -/
theorem find?_destutter (symbols : List Symbol) (a : Address) :
    (symbols.destutter Differ).find? (·.address = a) = symbols.find? (·.address = a) := by
  have hcons (s : Symbol) (rest : List Symbol) :
      (rest.destutter' Differ s).find? (·.address = a) = (s :: rest).find? (·.address = a) := by
    induction rest generalizing s with
    | nil => rfl
    | cons t rest ih =>
      by_cases h : s.Differ t
      · rw [List.destutter'_cons_pos _ h, List.find?_cons, ih t]
        rfl
      · rw [List.destutter'_cons_neg _ h, ih, List.find?_cons, List.find?_cons, List.find?_cons,
          not_not.mp h]
        split <;> rfl
  cases symbols with
  | nil => rfl
  | cons s rest => exact hcons s rest

/-- Symbols that are sorted and freed of repeats ascend strictly. -/
theorem pairwise_destutter_mergeSort (symbols : List Symbol) :
    ((symbols.mergeSort upTo).destutter Differ).Pairwise fun s t => s.address < t.address := by
  have hsorted := ((List.pairwise_mergeSort upTo_trans upTo_total symbols).sublist
    (List.destutter_sublist Differ _)).isChain
  have hdiffer := List.isChain_destutter Differ (symbols.mergeSort upTo)
  let precedes (s t : Symbol) : Prop := s.address < t.address
  have : Trans precedes precedes precedes := ⟨UInt64.lt_trans⟩
  refine List.isChain_iff_pairwise (R := precedes).mp (List.isChain_iff_getElem.mpr ?_)
  intro i hi
  have hle := List.isChain_iff_getElem.mp hsorted i hi
  exact UInt64.lt_of_le_of_ne (by simpa [upTo] using hle) (List.isChain_iff_getElem.mp hdiffer i hi)

/-- The members of a list that ascends by address are those that are found at their addresses. -/
theorem mem_iff_find? {list : List Symbol} (h : list.Pairwise fun s t => s.address < t.address) :
    s ∈ list ↔ list.find? (·.address = s.address) = some s := by
  refine ⟨fun hs => ?_, List.mem_of_find?_eq_some⟩
  induction list with
  | nil => cases hs
  | cons t rest ih =>
    obtain ⟨ht, hrest⟩ := List.pairwise_cons.mp h
    rcases List.mem_cons.mp hs with rfl | hs
    · simp
    · have hne : t.address ≠ s.address := UInt64.ne_of_lt (ht s hs)
      rw [List.find?_cons_of_neg (by simpa using hne)]
      exact ih hrest hs

/-- **Symbols are listed as by a stable sort by address that is then freed of repeats.** -/
theorem values_byAddress (symbols : List Symbol) :
    (byAddress symbols).values = (symbols.mergeSort upTo).destutter Differ := by
  have : Std.Antisymm fun s t : Symbol => s.address < t.address :=
    ⟨fun _ _ h h' => absurd h (UInt64.lt_asymm h')⟩
  have : Std.Irrefl fun s t : Symbol => s.address < t.address := ⟨fun _ => UInt64.lt_irrefl _⟩
  have hvalues := (keyed_byAddress symbols).pairwise_values
  have hsorted := pairwise_destutter_mergeSort symbols
  refine hvalues.eq_of_mem_iff hsorted fun s => ?_
  -- on both sides a symbol is listed if it is the first one at its address
  rw [mem_iff_find? hsorted, find?_destutter, (keyed_byAddress symbols).mem_values,
    getElem?_byAddress, ← List.head?_filter, ← List.head?_filter, filter_mergeSort]

/-! ### Ending code where the next symbol begins -/

@[simp] theorem address_endBefore (s : Symbol) (next : Address) :
    (s.endBefore next).address = s.address := by
  unfold endBefore
  split <;> rfl

@[simp] theorem size_endBefore (s : Symbol) (next : Address) :
    (s.endBefore next).size = s.size := by
  unfold endBefore
  split
  · next hsize _ => exact hsize.symm ▸ rfl
  · rfl

/-- A symbol in front of the symbol that follows it, if one does. -/
def before (s : Symbol) (next : Option Symbol) : Symbol :=
  next.elim s fun t => s.endBefore t.address

@[simp] theorem address_before (s : Symbol) (next : Option Symbol) :
    (s.before next).address = s.address := by
  cases next with
  | none => rfl
  | some t => exact s.address_endBefore t.address

@[simp] theorem size_before (s : Symbol) (next : Option Symbol) :
    (s.before next).size = s.size := by
  cases next with
  | none => rfl
  | some t => exact s.size_endBefore t.address

theorem getElem?_separate (symbols : List Symbol) (i : Nat) :
    (separate symbols)[i]? = symbols[i]?.map (·.before symbols[i + 1]?) := by
  fun_induction separate symbols generalizing i with
  | case1 s t rest ih =>
    cases i with
    | zero => rfl
    | succ i => exact ih i
  | case2 symbols hshort =>
    rcases symbols with _ | ⟨s, _ | ⟨t, rest⟩⟩
    · rfl
    · cases i <;> rfl
    · exact (hshort s t rest rfl).elim

theorem map_address_separate (symbols : List Symbol) :
    (separate symbols).map (·.address) = symbols.map (·.address) := by
  refine List.ext_getElem? fun i => ?_
  rw [List.getElem?_map, List.getElem?_map, getElem?_separate, Option.map_map]
  congr 1
  funext s
  exact s.address_before _

theorem pairwise_arrange (symbols : List Symbol) :
    ((arrange symbols).map (·.address)).Pairwise (· < ·) := by
  rw [arrange, map_address_separate, List.pairwise_map]
  exact (keyed_byAddress symbols).pairwise_values

/-- Each symbol is the first one at its address, ended where the symbol after it begins. -/
theorem eq_before_of_getElem?_arrange {i : Nat} (h : (arrange symbols)[i]? = some t) :
    ∃ s, symbols.find? (·.address = t.address) = some s ∧
      t = s.before (arrange symbols)[i + 1]? := by
  rw [arrange, getElem?_separate] at h
  obtain ⟨s, hs, rfl⟩ := Option.map_eq_some_iff.mp h
  refine ⟨s, ?_, ?_⟩
  · rw [address_before]
    exact find?_of_mem_values (List.mem_of_getElem? hs)
  · -- ending a symbol takes only the address of the one that follows
    rw [arrange, getElem?_separate]
    cases (byAddress symbols).values[i + 1]? with
    | none => rfl
    | some u =>
      rw [Option.map_some, before, before, Option.elim_some, Option.elim_some, address_before]

/-! ### The same in machine words -/

/-- Ends code as `endBefore` does, with words for numbers. -/
def endBeforeInWords (s : Symbol) (next : Address) : Except Underflow Symbol :=
  match s.size, s.range with
  | none, some r => do
    let distance ← difference next s.address
    let limit := cappedSum (.ofNat r.start) distance
    return { s with range := some ⟨r.start, (lesser (.ofNat r.stop) limit).toNat⟩ }
  | _, _ => return s

/-- Separates symbols as `separate` does, with words for numbers. -/
def separateInWords : List Symbol → Except Underflow (List Symbol)
  | s :: t :: rest => do
    let first ← s.endBeforeInWords t.address
    return first :: (← separateInWords (t :: rest))
  | symbols => return symbols

/-- Puts symbols in order as `arrange` does, with words for numbers. -/
def arrangeInWords (symbols : List Symbol) : Except Underflow (List Symbol) :=
  separateInWords (byAddress symbols).values

theorem endBeforeInWords_eq (haddress : s.address ≤ next)
    (hrange : ∀ r, s.range = some r → r.start < UInt64.size ∧ r.stop < UInt64.size) :
    s.endBeforeInWords next = .ok (s.endBefore next) := by
  cases hsize : s.size with
  | some n =>
    simp only [endBeforeInWords, endBefore, hsize]
    rfl
  | none =>
    cases hr : s.range with
    | none =>
      simp only [endBeforeInWords, endBefore, hsize, hr]
      rfl
    | some r =>
      obtain ⟨hstart, hstop⟩ := hrange r hr
      obtain ⟨distance, hdistance, hdistanceNat⟩ :=
        difference_of_le (UInt64.le_iff_toNat_le.mp haddress)
      have hend : (lesser (.ofNat r.stop) (cappedSum (.ofNat r.start) distance)).toNat =
          min r.stop (r.start + (next.toNat - s.address.toNat)) := by
        rw [toNat_lesser, toNat_cappedSum, UInt64.toNat_ofNat_of_lt' hstart,
          UInt64.toNat_ofNat_of_lt' hstop, hdistanceNat]
        omega
      simp only [endBeforeInWords, endBefore, hsize, hr, hdistance, ok_bind, hend]
      rfl

/-- Symbols in ascending order are separated without a fault. -/
theorem separateInWords_eq (hascending : symbols.Pairwise fun s t => s.address < t.address)
    (hranges : ∀ s ∈ symbols, ∀ r, s.range = some r → r.start < UInt64.size ∧
      r.stop < UInt64.size) :
    separateInWords symbols = .ok (separate symbols) := by
  fun_induction separate symbols with
  | case1 s t rest ih =>
    obtain ⟨hfirst, hrest⟩ := List.pairwise_cons.mp hascending
    have hlt : s.address < t.address := hfirst t List.mem_cons_self
    rw [separateInWords, endBeforeInWords_eq (UInt64.le_of_lt hlt) (hranges s List.mem_cons_self),
      ok_bind, ih hrest fun u hu => hranges u (List.mem_cons_of_mem s hu), ok_bind]
    rfl
  | case2 symbols hshort =>
    rcases symbols with _ | ⟨s, _ | ⟨t, rest⟩⟩
    · rfl
    · rfl
    · exact (hshort s t rest rfl).elim

/-! ### Symbols whose code was found in sections -/

/-- The code of a symbol, if it has any, was found in a section. Sections give addresses relative to
`base`. -/
def IsFound (s : Symbol) (base : Address) (fileSize : Nat) : Prop :=
  s.range = none ∨ ∃ sec : Section, s.range = sec.locate (s.address - base) s.size fileSize

/-- The symbols `result` are the symbols `symbols` put in order, and their code lies where it
belongs. -/
structure Arranged (base : Address) (fileSize : Nat) (symbols result : List Symbol) : Prop where
  /-- The addresses ascend strictly. -/
  ascending : (result.map (·.address)).Pairwise (· < ·)
  /-- There is a symbol for each address. -/
  addresses : ∀ a, a ∈ result.map (·.address) ↔ a ∈ symbols.map (·.address)
  /-- It is the first one at its address. If its size is unknown, it is ended before the symbol that
  follows. -/
  first : ∀ (i : Nat) (t : Symbol), result[i]? = some t →
    ∃ s, symbols.find? (·.address = t.address) = some s ∧ t = s.before result[i + 1]?
  /-- What is left of its code lies in the section in which it was found. -/
  placed : ∀ t ∈ result, ∀ r, t.range = some r →
    ∃ s sec, symbols.find? (·.address = t.address) = some s ∧
      s.range = sec.locate (t.address - base) t.size fileSize ∧
      r.LiesIn sec (t.address - base) t.size fileSize
  /-- The code of a symbol of unknown size does not run into the next symbol. -/
  separated : ∀ (i : Nat) (t u : Symbol) (r : FileRange), result[i]? = some t →
    result[i + 1]? = some u → t.size = none → t.range = some r →
    r.stop - r.start ≤ u.address.toNat - t.address.toNat

theorem IsFound.liesIn {r : FileRange} (h : s.IsFound base fileSize) (hr : s.range = some r) :
    ∃ sec : Section, s.range = sec.locate (s.address - base) s.size fileSize ∧
      r.LiesIn sec (s.address - base) s.size fileSize := by
  rcases h with hnone | ⟨sec, hsec⟩
  · rw [hnone] at hr
    cases hr
  · exact ⟨sec, hsec, Section.liesIn_of_locate (hsec ▸ hr)⟩

/-- A range that is left is the one that was there, ended before the next symbol if the size is
unknown. -/
theorem range_endBefore {r : FileRange} (h : (s.endBefore next).range = some r) :
    ∃ r', s.range = some r' ∧
      r = if s.size = none then ⟨r'.start, min r'.stop (r'.start + (next.toNat - s.address.toNat))⟩
      else r' := by
  obtain ⟨name, address, _ | n, _ | r'⟩ := s
  · cases h
  · exact ⟨r', rfl, (Option.some.inj h).symm⟩
  · cases h
  · exact ⟨r', rfl, (Option.some.inj h).symm⟩

/-- Ending code before a symbol at a greater address leaves it where it belongs. -/
theorem liesIn_before {r r' : FileRange} {sec : Section} {a : Address} {u : Option Symbol}
    (hlies : r'.LiesIn sec a s.size fileSize) (hr' : s.range = some r')
    (hnext : ∀ t ∈ u, s.address < t.address) (hr : (s.before u).range = some r) :
    r.LiesIn sec a s.size fileSize := by
  cases u with
  | none =>
    obtain rfl : r' = r := Option.some.inj (hr'.symm.trans hr)
    exact hlies
  | some t =>
    obtain ⟨r'', hr'', rfl⟩ := range_endBefore hr
    obtain rfl : r' = r'' := Option.some.inj (hr'.symm.trans hr'')
    have hlt := UInt64.lt_iff_toNat_lt.mp (hnext t rfl)
    split
    · exact hlies.cut (by omega)
    · exact hlies

theorem lt_of_getElem?_arrange {i : Nat} {u : Symbol} (ht : (arrange symbols)[i]? = some t)
    (hu : (arrange symbols)[i + 1]? = some u) : t.address < u.address := by
  obtain ⟨hi, rfl⟩ := List.getElem?_eq_some_iff.mp ht
  obtain ⟨hi', rfl⟩ := List.getElem?_eq_some_iff.mp hu
  have hascending := List.pairwise_map.mp (pairwise_arrange symbols)
  exact List.pairwise_iff_getElem.mp hascending i (i + 1) hi hi' (Nat.lt_succ_self i)

/-- What is known of symbols whose code was found in sections once they are put in order. -/
theorem arranged_arrange (h : ∀ s ∈ symbols, s.IsFound base fileSize) :
    Arranged base fileSize symbols (arrange symbols) where
  ascending := pairwise_arrange symbols
  addresses := fun a => by
    rw [arrange, map_address_separate]
    exact mem_addresses_byAddress
  first := fun i t ht => eq_before_of_getElem?_arrange ht
  placed := by
    intro t ht r hr
    obtain ⟨i, hi⟩ := List.getElem?_of_mem ht
    obtain ⟨s, hs, rfl⟩ := eq_before_of_getElem?_arrange hi
    have hrange : ∃ r', s.range = some r' := by
      cases hnext : (arrange symbols)[i + 1]? with
      | none => exact ⟨r, by simpa [hnext, before] using hr⟩
      | some u =>
        rw [hnext] at hr
        exact (range_endBefore hr).imp fun r' hr' => hr'.1
    obtain ⟨r', hr'⟩ := hrange
    obtain ⟨sec, hsec, hlies⟩ := (h s (List.mem_of_find?_eq_some hs)).liesIn hr'
    refine ⟨s, sec, hs, ?_, ?_⟩
    · rw [address_before, size_before]
      exact hsec
    · rw [address_before, size_before]
      refine liesIn_before hlies hr' (fun u hu => ?_) hr
      rw [← s.address_before (arrange symbols)[i + 1]?]
      exact lt_of_getElem?_arrange hi hu
  separated := by
    intro i t u r ht hu hsize hr
    obtain ⟨s, hs, rfl⟩ := eq_before_of_getElem?_arrange ht
    rw [hu] at hr hsize ⊢
    obtain ⟨r', -, rfl⟩ := range_endBefore hr
    rw [size_before] at hsize
    rw [if_pos hsize, address_before]
    change min r'.stop (r'.start + (u.address.toNat - s.address.toNat)) - r'.start ≤ _
    omega

/-- Symbols whose code was found in a file that words can measure are put in order without a
fault. -/
theorem arrangeInWords_eq (hsize : fileSize < UInt64.size)
    (h : ∀ s ∈ symbols, s.IsFound base fileSize) :
    arrangeInWords symbols = .ok (arrange symbols) := by
  refine separateInWords_eq (keyed_byAddress symbols).pairwise_values fun s hs r hr => ?_
  have hmem : s ∈ symbols := List.mem_of_find?_eq_some (find?_of_mem_values hs)
  obtain ⟨sec, -, hlies⟩ := (h s hmem).liesIn hr
  have hstart := hlies.start_lt_stop
  have hstop := hlies.stop_le_fileSize
  omega

end Symbol

/-! ### Symbols of object files -/

/-- What the first of several sections with code at an address gives was found in one of them. -/
theorem Section.isFound_of_findSome? {α : Type} {sections : List α} {toSection : α → Section}
    {a base : Address} {fileSize : Nat} {s : Symbol} (haddress : s.address - base = a)
    (hrange : s.range = sections.findSome? fun sec => (toSection sec).locate a s.size fileSize) :
    s.IsFound base fileSize := by
  rw [Symbol.IsFound, haddress, hrange]
  cases h : sections.findSome? fun sec => (toSection sec).locate a s.size fileSize with
  | none => exact Or.inl rfl
  | some r =>
    obtain ⟨sec, -, hsec⟩ := List.exists_of_findSome?_eq_some h
    exact Or.inr ⟨toSection sec, hsec.symm⟩

/-- What a symbol table entry of an ELF file makes of a symbol. -/
theorem Elf.SymbolEntry.of_toSymbol? {sections : List Elf.SectionHeader} {names : StringTable}
    {fileSize : Nat} {e : Elf.SymbolEntry} {s : Symbol}
    (h : e.toSymbol? sections names fileSize = some s) :
    s.address = e.value ∧ s.size = (if e.size = 0 then none else some e.size) ∧
      s.range = sections[e.definedIn]?.bind fun sec =>
        sec.toSection.locate e.value s.size fileSize := by
  obtain ⟨-, hs⟩ := Option.ite_none_left_eq_some.mp h
  obtain rfl := Option.some.inj hs
  exact ⟨rfl, rfl, rfl⟩

theorem Elf.SymbolEntry.isFound_of_toSymbol? {sections : List Elf.SectionHeader}
    {names : StringTable} {fileSize : Nat} {e : Elf.SymbolEntry} {s : Symbol}
    (h : e.toSymbol? sections names fileSize = some s) :
    s.IsFound 0 fileSize := by
  obtain ⟨haddress, -, hrange⟩ := of_toSymbol? h
  rw [Symbol.IsFound, haddress, UInt64.sub_zero, hrange]
  cases sections[e.definedIn]? with
  | none => exact Or.inl rfl
  | some sec => exact Or.inr ⟨sec.toSection, rfl⟩

theorem MachO.SymbolEntry.isFound_of_toSymbol? {sections : List Section} {fileSize : Nat}
    {e : MachO.SymbolEntry} {s : Symbol} (h : e.toSymbol? sections fileSize = some s) :
    s.IsFound 0 fileSize := by
  obtain ⟨-, hs⟩ := Option.ite_none_left_eq_some.mp h
  obtain rfl := Option.some.inj hs
  exact Section.isFound_of_findSome? (e.value.sub_zero) rfl

/-- Sections of a PE file give addresses relative to the image base. -/
theorem Pe.Export.isFound_of_toSymbol? {imageBase : Nat} {sections : List Pe.SectionEntry}
    {fileSize : Nat} {e : Pe.Export} {s : Symbol}
    (h : e.toSymbol? imageBase sections fileSize = some s) :
    s.IsFound (.ofNat imageBase) fileSize := by
  obtain ⟨-, hs⟩ := Option.ite_none_left_eq_some.mp h
  obtain rfl := Option.some.inj hs
  have hrelative : UInt64.ofNat (imageBase + e.address) - UInt64.ofNat imageBase =
      UInt64.ofNat e.address := by
    rw [UInt64.ofNat_add, UInt64.add_comm, UInt64.add_sub_cancel]
  exact Section.isFound_of_findSome? hrelative rfl

/-- The bytes of a file from `start` up to, not including, `stop`, if the file has them all. -/
def Image.slice? (i : Image) (start stop : Nat) : Option (List UInt8) :=
  if start ≤ stop ∧ stop ≤ i.size then some (i.slice start stop) else none

namespace ObjectFile

variable {image : Image} {o : ObjectFile} {t : Symbol} {fileSize : Nat}

/-- An object file is a program in one of three formats, or says nothing about a program. -/
theorem read?_cases (h : read? image = some o) :
    o = unknown ∨ (∃ e : Elf, o = e.toObjectFile image.size) ∨
    (∃ p : Pe, o = p.toObjectFile image.size) ∨
      ∃ m : MachO, o = m.toObjectFile image.size := by
  unfold read? at h
  dsimp only at h
  split at h
  · cases h
  split at h
  · obtain ⟨e, -, rfl⟩ := Option.map_eq_some_iff.mp h
    exact Or.inr (Or.inl ⟨e, rfl⟩)
  split at h
  · exact Or.inl (Option.some.inj (Option.ite_none_right_eq_some.mp h).2).symm
  split at h
  · obtain ⟨p, -, rfl⟩ := Option.map_eq_some_iff.mp h
    exact Or.inr (Or.inr (Or.inl ⟨p, rfl⟩))
  split at h
  · exact Or.inl (Option.some.inj (Option.ite_none_right_eq_some.mp h).2).symm
  split at h
  · obtain ⟨m, -, rfl⟩ := Option.map_eq_some_iff.mp h
    exact Or.inr (Or.inr (Or.inr ⟨m, rfl⟩))
  · exact Or.inl (Option.some.inj h).symm

/-- The code of all function symbols of a file was found in its sections. -/
theorem exists_isFound_of_read? (h : read? image = some o) :
    ∃ base, ∀ s ∈ o.symbols, s.IsFound base image.size := by
  rcases read?_cases h with rfl | ⟨e, rfl⟩ | ⟨p, rfl⟩ | ⟨m, rfl⟩
  · exact ⟨0, fun s hs => by cases hs⟩
  · refine ⟨0, fun s hs => ?_⟩
    obtain ⟨entry, -, hentry⟩ := List.mem_filterMap.mp hs
    exact Elf.SymbolEntry.isFound_of_toSymbol? hentry
  · refine ⟨.ofNat p.imageBase, fun s hs => ?_⟩
    obtain ⟨entry, -, hentry⟩ := List.mem_filterMap.mp hs
    exact Pe.Export.isFound_of_toSymbol? hentry
  · refine ⟨0, fun s hs => ?_⟩
    obtain ⟨entry, -, hentry⟩ := List.mem_filterMap.mp hs
    exact MachO.SymbolEntry.isFound_of_toSymbol? hentry

/-- A function of a file is one of its symbols, or stands in for its entry point. -/
theorem mem_functions (h : t ∈ o.functions fileSize) :
    t ∈ Symbol.arrange o.symbols ∨ Symbol.ofEntry? o.entry o.sections fileSize = some t := by
  unfold functions at h
  split at h
  · exact Or.inr (Option.mem_toList.mp h)
  · exact Or.inl h

/-- The code of every function of a file lies in some section and in the file. -/
theorem exists_liesIn_of_mem_functions (h : read? image = some o) (ht : t ∈ o.functions image.size)
    {r : FileRange} (hr : t.range = some r) :
    ∃ (sec : Section) (a : Address), r.LiesIn sec a t.size image.size := by
  rcases mem_functions ht with hsymbol | hentry
  · obtain ⟨base, hfound⟩ := exists_isFound_of_read? h
    obtain ⟨-, sec, -, -, hlies⟩ := (Symbol.arranged_arrange hfound).placed t hsymbol r hr
    exact ⟨sec, t.address - base, hlies⟩
  · obtain ⟨r', hr', rfl⟩ := Option.map_eq_some_iff.mp hentry
    obtain rfl : r' = r := Option.some.inj hr
    obtain ⟨sec, -, hsec⟩ := List.exists_of_findSome?_eq_some hr'
    exact ⟨sec, o.entry, Section.liesIn_of_locate hsec⟩

end ObjectFile

/-- **The code of every function lies in the file and in its place.** Let the length of the file be
a word. To find code in a section, words suffice, whatever the numbers are: no subtraction goes
below zero and nothing wraps around. The same holds of putting symbols in order if their code was
found in sections. Then addresses ascend strictly and are those of the symbols, the first symbol at
each address stays, and all ranges lie in place (`Symbol.Arranged`). The symbols of a file are of
this kind, and the file has all bytes of each of its functions. -/
theorem code_inBounds {fileSize : Nat} (hsize : fileSize < UInt64.size) :
    (∀ (sec : Section) (a : Address) (size : Option UInt64),
      sec.locateInWords a size (.ofNat fileSize) = .ok (sec.locate a size fileSize)) ∧
    (∀ (base : Address) (symbols : List Symbol), (∀ s ∈ symbols, s.IsFound base fileSize) →
      Symbol.arrangeInWords symbols = .ok (Symbol.arrange symbols) ∧
        Symbol.Arranged base fileSize symbols (Symbol.arrange symbols)) ∧
    ∀ (image : Image) (o : ObjectFile), image.size = fileSize → ObjectFile.read? image = some o →
      (∃ base, ∀ s ∈ o.symbols, s.IsFound base fileSize) ∧
        ∀ t ∈ o.functions fileSize, ∀ r, t.range = some r →
          image.slice? r.start r.stop = some (image.slice r.start r.stop) := by
  refine ⟨fun sec a size => sec.locateInWords_eq a size hsize, fun base symbols hfound => ?_, ?_⟩
  · exact ⟨Symbol.arrangeInWords_eq hsize hfound, Symbol.arranged_arrange hfound⟩
  · rintro image o rfl hread
    refine ⟨ObjectFile.exists_isFound_of_read? hread, fun t ht r hr => ?_⟩
    obtain ⟨sec, a, hlies⟩ := ObjectFile.exists_liesIn_of_mem_functions hread ht hr
    exact if_pos ⟨Nat.le_of_lt hlies.start_lt_stop, hlies.stop_le_fileSize⟩

/-- A section that ends at the last address, stored at the end of a file of 64 bytes. -/
def edgeSection : Section := ⟨0xffffffffffffffef, 0x10, 0x30⟩

/-- Symbols in that section, out of order, two of them at one address, and a symbol outside. -/
def edgeSymbols : List Symbol :=
  [⟨"late", 0xfffffffffffffff7, none, edgeSection.locate 0xfffffffffffffff7 none 64⟩,
    ⟨"early", 0xffffffffffffffef, none, edgeSection.locate 0xffffffffffffffef none 64⟩,
    ⟨"sized", 0xfffffffffffffff3, some 2, edgeSection.locate 0xfffffffffffffff3 (some 2) 64⟩,
    ⟨"shadow", 0xffffffffffffffef, some 1, edgeSection.locate 0xffffffffffffffef (some 1) 64⟩,
    ⟨"outside", 0x1000, none, edgeSection.locate 0x1000 none 64⟩]

theorem code_inBounds_edge : 64 < UInt64.size ∧ (∀ s ∈ edgeSymbols, s.IsFound 0 64) ∧
    Symbol.arrangeInWords edgeSymbols = .ok (Symbol.arrange edgeSymbols) ∧
    Symbol.Arranged 0 64 edgeSymbols (Symbol.arrange edgeSymbols) ∧
    (Symbol.arrange edgeSymbols).map (fun s => (s.name, s.range)) =
      [("outside", none), ("early", some ⟨0x30, 0x34⟩), ("sized", some ⟨0x34, 0x36⟩),
        ("late", some ⟨0x38, 0x40⟩)] := by
  have hsize : 64 < UInt64.size := by decide
  have hfound : ∀ s ∈ edgeSymbols, s.IsFound 0 64 := by
    simp only [edgeSymbols, List.forall_mem_cons]
    exact ⟨.inr ⟨edgeSection, rfl⟩, .inr ⟨edgeSection, rfl⟩, .inr ⟨edgeSection, rfl⟩,
      .inr ⟨edgeSection, rfl⟩, .inr ⟨edgeSection, rfl⟩, nofun⟩
  obtain ⟨hwords, harranged⟩ := (code_inBounds hsize).2.1 0 edgeSymbols hfound
  exact ⟨hsize, hfound, hwords, harranged, by decide +kernel⟩

end SymbolicPaths
