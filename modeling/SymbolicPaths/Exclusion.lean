import SymbolicPaths.Graph
import SymbolicPaths.Text.Lowercase

/-!
# Register exclusions

Some registers are structure rather than input: the stack and frame pointers, the instruction
pointer, the segment registers. An `ExclusionTable` says, by architecture, which offsets of the
register file to leave out. Architecture names are compared in lower case.
-/

namespace SymbolicPaths

/-- A set of register-file offsets, listed in ascending order. -/
abbrev OffsetSet := Std.ExtTreeSet UInt64

/-- The offsets of the stack, frame and instruction pointers and of the segment registers in the
register file of the x86 family. -/
def x86StructuralOffsets : List UInt64 := [0x30, 0x38, 0x40, 0x48, 0xb8]

/-- The register offsets to leave out, by lower-case architecture name. -/
structure ExclusionTable where
  byArchitecture : Std.ExtTreeMap String OffsetSet

namespace ExclusionTable

@[ext] theorem ext {t u : ExclusionTable} (e : t.byArchitecture = u.byArchitecture) : t = u := by
  cases t; cases u; simp_all

instance : DecidableEq ExclusionTable := fun t u =>
  decidable_of_iff (t.byArchitecture = u.byArchitecture) ⟨ext, congrArg byArchitecture⟩

/-- The table that excludes nothing. -/
def empty : ExclusionTable := ⟨∅⟩

/-- Adds offsets for an architecture. Without offsets this still makes an entry. -/
def extend (t : ExclusionTable) (architecture : String) (offsets : List UInt64) : ExclusionTable :=
  let name := Case.lowercase architecture
  ⟨t.byArchitecture.insert name ((t.byArchitecture.getD name ∅).insertMany offsets)⟩

/-- The offsets to leave out for an architecture. Nothing is left out for an unknown one. -/
def offsetsFor (t : ExclusionTable) (architecture : String) : OffsetSet :=
  t.byArchitecture.getD (Case.lowercase architecture) ∅

/-- The built-in table: the structural registers of the x86 family. -/
def builtIn : ExclusionTable :=
  ["x86_64", "amd64", "x86", "i386"].foldl (·.extend · x86StructuralOffsets) empty

end ExclusionTable

end SymbolicPaths
