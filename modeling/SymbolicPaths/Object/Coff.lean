import SymbolicPaths.Object.Symbol
import SymbolicPaths.Text.Decimal

/-!
# COFF files

The header and the section table that COFF object files share with PE programs. An object file on
its own says nothing about a program, but it has to be well formed.

A section name that does not fit into its eight bytes is kept in the string table behind the
symbols. The names themselves do not matter here; a file whose section names cannot be found is
not read at all.
-/

namespace SymbolicPaths

namespace Coff

/-- The file header. -/
structure Header where
  machine : Nat
  sectionCount : Nat
  /-- Offset of the symbol table; zero if there is none. -/
  symbolOffset : Nat
  symbolCount : Nat
  /-- How many bytes the header that follows takes. -/
  optionalSize : Nat

namespace Header

/-- The size of the header. -/
def width : Nat := 20

/-- Reads the header at an offset. -/
def read? (i : Image) (start : Nat) : Option Header := do
  match ← i.fields? .little start [2, 2, 4, 4, 4, 2, 2] with
  | [machine, sectionCount, _, symbolOffset, symbolCount, optionalSize, _] =>
    return ⟨machine, sectionCount, symbolOffset, symbolCount, optionalSize⟩
  | _ => none

/-- Where the string table begins: behind the symbols, of eighteen bytes each. -/
def stringOffset (h : Header) : Nat :=
  h.symbolOffset + 18 * h.symbolCount

end Header

/-- The value of a digit in base 64. -/
def digit64? (b : UInt8) : Option Nat :=
  if 0x41 ≤ b && b ≤ 0x5a then some (b.toNat - 0x41)
  else if 0x61 ≤ b && b ≤ 0x7a then some (b.toNat - 0x61 + 26)
  else if 0x30 ≤ b && b ≤ 0x39 then some (b.toNat - 0x30 + 52)
  else if b = 0x2b then some 62
  else if b = 0x2f then some 63
  else none

/-- Where in the string table a section name is found, if it is not kept in place: after one slash
the position is written in decimal digits, after two in digits of base 64. Nothing if the digits
are none. -/
def namePosition? (name : List UInt8) : Option (Option Nat) :=
  let digits := name.takeWhile (· != 0)
  match digits with
  | 0x2f :: 0x2f :: digits => do
    let values ← digits.mapM digit64?
    return some (values.foldl (fun n d => 64 * n + d) 0)
  | 0x2f :: digits => do
    let text ← String.fromUTF8? ⟨digits.toArray⟩
    return some (← Text.decimal? text.toList)
  | _ => some none

/-- A section of the file. -/
structure SectionEntry where
  virtualSize : Nat
  virtualAddress : Nat
  rawSize : Nat
  rawOffset : Nat

namespace SectionEntry

/-- The size of a section table entry. -/
def width : Nat := 40

/-- Reads a section table entry, given where the string table begins. -/
def read? (i : Image) (strings start : Nat) : Option SectionEntry := do
  match ← i.fields? .little (start + 8) [4, 4, 4, 4, 4, 4, 2, 2, 4] with
  | [virtualSize, virtualAddress, rawSize, rawOffset, _, _, _, _, _] =>
    if let some position ← namePosition? (i.slice start (start + 8)) then
      let _ ← i.text? (strings + position)
    return ⟨virtualSize, virtualAddress, rawSize, rawOffset⟩
  | _ => none

/-- Reads the section table at an offset. -/
def table? (i : Image) (h : Header) (start : Nat) : Option (List SectionEntry) :=
  if i.size / width < h.sectionCount then none
  else Image.records? (read? i h.stringOffset) width h.sectionCount start

end SectionEntry

/-- Whether the symbols and the string table behind them lie within the file. The string table
begins with its own length, which counts itself. -/
def symbolsFit (i : Image) (h : Header) : Bool :=
  h.symbolOffset = 0 ||
    match i.number? .little h.stringOffset 4 with
    | none => false
    | some length => 4 ≤ length && (StringTable.read? i (h.stringOffset + 4) (length - 4)).isSome

/-- Whether a file is a well-formed object file. -/
def isWellFormed (i : Image) : Bool :=
  match Header.read? i 0 with
  | none => false
  | some h =>
    (SectionEntry.table? i h (Header.width + h.optionalSize)).isSome && symbolsFit i h

/-- Whether the first two bytes of a file are the machine number of an object file. -/
def isMachine (machine : Nat) : Bool :=
  machine = 0x14c || machine = 0x8664 || machine = 0xaa64

end Coff

end SymbolicPaths
