import Mathlib.Data.List.Basic
import SymbolicPaths.Options
import SymbolicPaths.Proofs.KeyedMaps
import SymbolicPaths.Proofs.LowercaseLaws

/-!
# Exclusion tables are unions

A table of register exclusions grows by extensions: offsets are added for an architecture, which may
be spelled in any case. Whatever the order of the extensions and however often each is made, what is
left out for an architecture in the end is what was left out before and all that was added under any
spelling of its name, and nothing else (`ExclusionTable.extendAll_union`). The options of a dump
extend the built-in table, so that they never exclude less.

Two names that differ in options may have one lower-case form, and then share an entry of the table.
An extension therefore adds to what the entry has (`excludes_extend`); what a sequence of extensions
does follows by induction. A table has nothing but the names that it lists and the offsets that it
excludes for each (`eq_of_lists_of_excludes`).
-/

namespace SymbolicPaths

/-- Offsets to leave out for an architecture. -/
structure Exclusion where
  architecture : String
  offsets : List UInt64
  deriving DecidableEq

/-- Whether an exclusion is for the architecture, in whatever case the two names are spelled. -/
def Exclusion.Concerns (x : Exclusion) (architecture : String) : Prop :=
  Case.lowercase x.architecture = Case.lowercase architecture

namespace ExclusionTable

variable {t u : ExclusionTable} {name architecture : String} {offset : UInt64}

/-! ### Entries are all there is -/

/-- Whether a lower-case name has an entry. -/
def Lists (t : ExclusionTable) (name : String) : Prop :=
  name ∈ t.byArchitecture

/-- Whether the entry of a lower-case name has the offset. -/
def Excludes (t : ExclusionTable) (name : String) (offset : UInt64) : Prop :=
  offset ∈ t.byArchitecture.getD name ∅

theorem mem_offsetsFor :
    offset ∈ t.offsetsFor architecture ↔ t.Excludes (Case.lowercase architecture) offset :=
  Iff.rfl

/-- Tables that list the same names and exclude the same offsets are equal. -/
theorem eq_of_lists_of_excludes (hlists : ∀ name, t.Lists name ↔ u.Lists name)
    (hexcludes : ∀ name offset, t.Excludes name offset ↔ u.Excludes name offset) : t = u := by
  refine ext (eq_of_mem_of_getD ∅ hlists fun name => ?_)
  exact Std.ExtTreeSet.ext_mem (hexcludes name)

/-- A name and its lower-case form are one architecture. -/
theorem offsetsFor_lowercase (t : ExclusionTable) (architecture : String) :
    t.offsetsFor (Case.lowercase architecture) = t.offsetsFor architecture := by
  rw [offsetsFor, Case.lowercase_lowercase, offsetsFor]

/-! ### One extension and a whole sequence -/

theorem lists_extend (offsets : List UInt64) :
    (t.extend architecture offsets).Lists name ↔
    t.Lists name ∨ Case.lowercase architecture = name := by
  rw [Lists, extend, Std.ExtTreeMap.mem_insert, Std.compare_eq_iff_eq, or_comm]
  rfl

/-- An entry that is there already keeps its offsets. -/
theorem excludes_extend (offsets : List UInt64) :
    (t.extend architecture offsets).Excludes name offset ↔
    t.Excludes name offset ∨ Case.lowercase architecture = name ∧ offset ∈ offsets := by
  rw [Excludes, extend, Std.ExtTreeMap.getD_insert]
  by_cases hname : Case.lowercase architecture = name
  · rw [if_pos (Std.compare_eq_iff_eq.mpr hname), Std.ExtTreeSet.mem_insertMany_list,
      List.contains_iff_mem, hname, and_iff_right rfl]
    rfl
  · rw [if_neg fun h => hname (Std.compare_eq_iff_eq.mp h)]
    exact ⟨Or.inl, fun h => h.resolve_right fun hadded => hname hadded.1⟩

/-- The table after a sequence of extensions. -/
def extendAll (t : ExclusionTable) (exclusions : List Exclusion) : ExclusionTable :=
  exclusions.foldl (fun t x => t.extend x.architecture x.offsets) t

variable {exclusions : List Exclusion}

theorem extendAll_cons (x : Exclusion) (rest : List Exclusion) :
    t.extendAll (x :: rest) = (t.extend x.architecture x.offsets).extendAll rest :=
  rfl

theorem lists_extendAll : (t.extendAll exclusions).Lists name ↔
    t.Lists name ∨ ∃ x ∈ exclusions, Case.lowercase x.architecture = name := by
  induction exclusions generalizing t with
  | nil => simp [extendAll]
  | cons x rest ih => rw [extendAll_cons, ih, lists_extend, or_assoc, List.exists_mem_cons_iff]

theorem excludes_extendAll : (t.extendAll exclusions).Excludes name offset ↔
    t.Excludes name offset ∨
      ∃ x ∈ exclusions, Case.lowercase x.architecture = name ∧ offset ∈ x.offsets := by
  induction exclusions generalizing t with
  | nil => simp [extendAll]
  | cons x rest ih => rw [extendAll_cons, ih, excludes_extend, or_assoc, List.exists_mem_cons_iff]

theorem mem_offsetsFor_extendAll : offset ∈ (t.extendAll exclusions).offsetsFor architecture ↔
    offset ∈ t.offsetsFor architecture ∨
      ∃ x ∈ exclusions, x.Concerns architecture ∧ offset ∈ x.offsets :=
  mem_offsetsFor.trans excludes_extendAll

/-- Neither order nor repetition matters. -/
theorem extendAll_congr {others : List Exclusion} (h : ∀ x, x ∈ others ↔ x ∈ exclusions) :
    t.extendAll others = t.extendAll exclusions := by
  -- both what is listed and what is excluded is said by membership in the sequence alone
  refine eq_of_lists_of_excludes (fun name => ?_) fun name offset => ?_
  · simp only [lists_extendAll, h]
  · simp only [excludes_extendAll, h]

/-! ### The built-in table and the options -/

theorem offsetsFor_empty (architecture : String) : empty.offsetsFor architecture = ∅ :=
  Std.ExtTreeMap.getD_empty

/-- The names of the x86 family are in lower case. -/
theorem lowercase_x86Family (h : name ∈ ["x86_64", "amd64", "x86", "i386"]) :
    Case.lowercase name = name := by
  have hsettled : (["x86_64", "amd64", "x86", "i386"].all (·.toList.all Case.isSettled)) =
      true := by
    decide +kernel
  refine Case.lowercase_of_stays fun c hc => Case.stays_of_isSettled ?_
  exact List.all_eq_true.mp (List.all_eq_true.mp hsettled name h) c hc

theorem mem_offsetsFor_builtIn : offset ∈ builtIn.offsetsFor architecture ↔
    Case.lowercase architecture ∈ ["x86_64", "amd64", "x86", "i386"] ∧
    offset ∈ x86StructuralOffsets := by
  -- the built-in table is itself made by extensions
  have hbuiltIn : builtIn =
      empty.extendAll (["x86_64", "amd64", "x86", "i386"].map (⟨·, x86StructuralOffsets⟩)) := rfl
  rw [hbuiltIn, mem_offsetsFor_extendAll, offsetsFor_empty,
    or_iff_right Std.ExtTreeSet.not_mem_empty]
  constructor
  · rintro ⟨x, hx, hconcerns, hoffset⟩
    obtain ⟨name, hname, rfl⟩ := List.mem_map.mp hx
    have hlower : Case.lowercase architecture = name :=
      hconcerns.symm.trans (lowercase_x86Family hname)
    exact ⟨hlower ▸ hname, hoffset⟩
  · rintro ⟨hname, hoffset⟩
    exact ⟨_, List.mem_map.mpr ⟨_, hname, rfl⟩, lowercase_x86Family hname, hoffset⟩

theorem mem_offsetsFor_exclusionTable {o : Options} :
    offset ∈ o.exclusionTable.offsetsFor architecture ↔
      offset ∈ builtIn.offsetsFor architecture ∨
        ∃ name offsets, o.registerExclusions[name]? = some offsets ∧
          Case.lowercase name = Case.lowercase architecture ∧ offset ∈ offsets := by
  -- the options are a sequence of extensions, one for each of their names
  have htable : o.exclusionTable =
      builtIn.extendAll (o.registerExclusions.toList.map fun e => ⟨e.1, e.2⟩) := by
    rw [extendAll, List.foldl_map]
    rfl
  rw [htable, mem_offsetsFor_extendAll]
  refine or_congr_right ⟨?_, ?_⟩
  · rintro ⟨x, hx, hconcerns, hoffset⟩
    obtain ⟨⟨name, offsets⟩, hentry, rfl⟩ := List.mem_map.mp hx
    exact ⟨name, offsets, Std.ExtTreeMap.mem_toList_iff_getElem?_eq_some.mp hentry,
      hconcerns, hoffset⟩
  · rintro ⟨name, offsets, hentry, hconcerns, hoffset⟩
    have hmem := Std.ExtTreeMap.mem_toList_iff_getElem?_eq_some.mpr hentry
    exact ⟨⟨name, offsets⟩, List.mem_map.mpr ⟨_, hmem, rfl⟩, hconcerns, hoffset⟩

/-- **Exclusion tables are unions.** Let a table be extended any number of times, by any offsets for
any names. For an architecture it then leaves out exactly the offsets that it left out before for
the lower-case name and those of all extensions whose name has the same lower-case form. Before, the
empty table leaves out nothing, and the built-in one the structural registers for the four
lower-case names of the x86 family. The same extensions in another order, and with other
repetitions, give an equal table. The table of the options leaves out what the built-in one does,
for every architecture, and besides exactly the offsets that the options give for some spelling of
its name. -/
theorem extendAll_union (t : ExclusionTable) (exclusions : List Exclusion) :
    (∀ architecture offset, offset ∈ (t.extendAll exclusions).offsetsFor architecture ↔
      offset ∈ t.offsetsFor (Case.lowercase architecture) ∨
        ∃ x ∈ exclusions, x.Concerns architecture ∧ offset ∈ x.offsets) ∧
    (∀ architecture, empty.offsetsFor architecture = ∅) ∧
    (∀ architecture offset, offset ∈ builtIn.offsetsFor architecture ↔
      Case.lowercase architecture ∈ ["x86_64", "amd64", "x86", "i386"] ∧
      offset ∈ x86StructuralOffsets) ∧
    (∀ others : List Exclusion, (∀ x, x ∈ others ↔ x ∈ exclusions) →
      t.extendAll others = t.extendAll exclusions) ∧
    ∀ (o : Options) architecture offset,
      (offset ∈ builtIn.offsetsFor architecture →
        offset ∈ o.exclusionTable.offsetsFor architecture) ∧
      (offset ∈ o.exclusionTable.offsetsFor architecture ↔
        offset ∈ builtIn.offsetsFor architecture ∨
          ∃ name offsets, o.registerExclusions[name]? = some offsets ∧
            Case.lowercase name = Case.lowercase architecture ∧ offset ∈ offsets) := by
  refine ⟨fun architecture offset => ?_, offsetsFor_empty, fun _ _ => mem_offsetsFor_builtIn,
    fun _ hsame => extendAll_congr hsame, fun o architecture offset => ?_⟩
  · rw [offsetsFor_lowercase]
    exact mem_offsetsFor_extendAll
  · refine ⟨fun hbuiltIn => ?_, mem_offsetsFor_exclusionTable⟩
    exact mem_offsetsFor_exclusionTable.mpr (Or.inl hbuiltIn)

/-- Extensions under three spellings of one name, one of them with the Kelvin sign, and for a
built-in architecture. -/
def spellings : List Exclusion :=
  [⟨"\u212A8", [0x10]⟩, ⟨"k8", [0x8, 0x10]⟩, ⟨"X86", [0x18, 0x30]⟩, ⟨"K8", []⟩]

/-- The same extensions in another order, some of them twice. -/
def spellingsAgain : List Exclusion :=
  [⟨"K8", []⟩, ⟨"X86", [0x18, 0x30]⟩, ⟨"k8", [0x8, 0x10]⟩, ⟨"X86", [0x18, 0x30]⟩,
    ⟨"\u212A8", [0x10]⟩, ⟨"K8", []⟩]

theorem extendAll_union_spellings :
    (∀ x, x ∈ spellingsAgain ↔ x ∈ spellings) ∧
    builtIn.extendAll spellingsAgain = builtIn.extendAll spellings ∧
    ((builtIn.extendAll spellings).offsetsFor "\u212A8").toList = [0x8, 0x10] ∧
    ((builtIn.extendAll spellings).offsetsFor "x86").toList =
      [0x18, 0x30, 0x38, 0x40, 0x48, 0xb8] := by
  have hsame : ∀ x, x ∈ spellingsAgain ↔ x ∈ spellings := by
    intro x
    simp only [spellingsAgain, spellings, List.mem_cons]
    grind
  exact ⟨hsame, (extendAll_union builtIn spellings).2.2.2.1 spellingsAgain hsame, by decide +kernel⟩

end ExclusionTable

end SymbolicPaths
