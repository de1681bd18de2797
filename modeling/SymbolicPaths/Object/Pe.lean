import SymbolicPaths.Object.Coff

/-!
# PE files

The parts of a PE file that matter here: the headers, the section table, and the export and import
directories. Positions in memory are given relative to the image base; `SectionEntry.offset?` turns
them into positions in the file.

Exports that cannot be read are left out. Imports that cannot be read make the whole file
unreadable, and so do directories of debug information, of unwinding information and of certificates
that break their rules.
-/

namespace SymbolicPaths

namespace Pe

/-- A directory of the optional header: its relative address and its size. -/
structure Directory where
  address : Nat
  size : Nat

/-- The optional header. -/
structure OptionalHeader where
  /-- Whether the image uses addresses of eight bytes. -/
  wide : Bool
  entry : Nat
  imageBase : Nat
  fileAlignment : Nat
  directories : List Directory

/-- Reads the optional header at an offset. It can have sixteen directories at most. -/
def OptionalHeader.read? (i : Image) (start : Nat) : Option OptionalHeader := do
  let wide ← match ← i.number? .little start 2 with
    | 0x10b => some false
    | 0x20b => some true
    | _ => none
  let length := if wide then 112 else 96
  let entry ← i.number? .little (start + 16) 4
  let imageBase ←
    if wide then i.number? .little (start + 24) 8 else i.number? .little (start + 28) 4
  let fileAlignment ← i.number? .little (start + 36) 4
  let count ← i.number? .little (start + length - 4) 4
  if 16 < count then none
  let directories ← Image.records? (fun offset => do
    match ← i.fields? .little offset [4, 4] with
    | [address, size] => return ⟨address, size⟩
    | _ => none) 8 count (start + length)
  return ⟨wide, entry, imageBase, fileAlignment, directories⟩

/-- A directory of the optional header, unless it is absent or blank. -/
def OptionalHeader.directory? (h : OptionalHeader) (index : Nat) : Option Directory :=
  (h.directories[index]?).filter fun d => d.address != 0 || d.size != 0

/-- A section of the image. -/
abbrev SectionEntry := Coff.SectionEntry

namespace SectionEntry

/-- Rounds a number up to a multiple of another one. -/
def roundUp (n unit : Nat) : Nat :=
  (n + unit - 1) / unit * unit

/-- Where the content of the section begins: sections start at multiples of 512 bytes, whatever
their header says. -/
def storedAt (s : SectionEntry) : Nat :=
  s.rawOffset / 512 * 512

/-- How much of the section is read into memory: its content in the file up to the next multiple of
the file alignment, but no more whole pages than its sizes in the file and in memory take. -/
def readSize (s : SectionEntry) (fileAlignment : Nat) : Nat :=
  let stored := roundUp (s.rawOffset + s.rawSize) fileAlignment - s.storedAt
  let stored := min stored (roundUp s.rawSize 4096)
  if s.virtualSize = 0 then stored else min stored (roundUp s.virtualSize 4096)

/-- The position in the file of what is at a relative address: the first section around it tells.
There is none if the file alignment is no power of two. -/
def offset? (sections : List SectionEntry) (fileAlignment : Nat) (address : Nat) : Option Nat :=
  if fileAlignment = 0 ∨ fileAlignment &&& (fileAlignment - 1) ≠ 0 then none
  else
    (sections.find? fun s =>
      s.virtualAddress ≤ address ∧ address < s.virtualAddress + s.readSize fileAlignment).map
        fun s => address - s.virtualAddress + s.storedAt

end SectionEntry

/-! ### Exports -/

/-- A named export: its name, where the file has it, and its relative address. -/
structure Export where
  name : Option String
  address : Nat

/-- Reads numbers of `width` bytes for as long as there are any, `count` of them at most. -/
def numbers (i : Image) (width : Nat) : Nat → Nat → List Nat
  | 0, _ => []
  | count + 1, offset =>
    match i.number? .little offset width with
    | none => []
    | some n => n :: numbers i width count (offset + width)

/-- Whether a text is the name of a routine in another library: a library, a dot, and a name or the
sign `#` and a number. -/
def isForwarder (text : String) : Bool :=
  match text.toList.dropWhile (· != '.') with
  | [] => false
  | [_] => false
  | _ :: '#' :: number => (Text.decimal? number).any (· < UInt32.size)
  | _ => true

/-- Reads the export directory. The addresses that lie within the directory itself stand for
routines of other libraries. -/
def Export.table (i : Image) (offset? : Nat → Option Nat) (d : Directory) : List Export :=
  let directory := do
    let start ← offset? d.address
    i.fields? .little start [4, 4, 2, 2, 4, 4, 4, 4, 4, 4, 4]
  match directory with
  | some [_, _, _, _, _, _, addressCount, nameCount, addressTable, nameTable, ordinalTable] =>
    if i.size < nameCount ∨ i.size < addressCount then []
    else
      let table (address width count : Nat) : List Nat :=
        ((offset? address).map (numbers i width count)).getD []
      let addresses := table addressTable 4 addressCount
      let ordinals := table ordinalTable 2 nameCount
      let names := table nameTable 4 nameCount
      (names.zip ordinals).filterMap fun (name, ordinal) => do
        let address ← addresses[ordinal]?
        if d.address ≤ address ∧ address < d.address + d.size then
          let target ← (offset? address).bind i.text?
          if !isForwarder target then none
        return ⟨(offset? name).bind i.text?, address⟩
  | _ => []

/-! ### Imports -/

/-- An imported routine: the relative address of its name, and the name. A routine that is imported
by number has the number for a name, and no address. -/
structure Import where
  address : Nat
  name : String

/-- Reads the words of a table that a zero word ends. -/
def zeroEnded? (i : Image) (width : Nat) : Nat → Nat → Option (List Nat)
  | 0, _ => none
  | fuel + 1, offset => do
    let n ← i.number? .little offset width
    if n = 0 then return []
    let rest ← zeroEnded? i width fuel (offset + width)
    return n :: rest

/-- Reads the routine that a word of a lookup table stands for. One whose name lies outside the
sections is left out. -/
def lookup? (i : Image) (offset? : Nat → Option Nat) (wide : Bool) (word : Nat) :
    Option (Option Import) :=
  if 1 <<< (if wide then 63 else 31) ≤ word then
    some (some ⟨0, s!"ORDINAL {word % UInt16.size}"⟩)
  else
    let address := word % 0x80000000
    match offset? address with
    | none => some none
    | some offset => do
      let _ ← i.number? .little offset 2
      let name ← i.text? (offset + 2)
      return some ⟨address, name⟩

/-- Reads the routines imported from one library. -/
def libraryImports? (i : Image) (offset? : Nat → Option Nat) (wide : Bool)
    (lookupTable name addressTable : Nat) : Option (List Import) := do
  let width := if wide then 8 else 4
  let _ ← (offset? name).bind i.text?
  let words ← match offset? lookupTable, offset? addressTable with
    | some offset, _ => zeroEnded? i width i.size offset
    | none, some offset => zeroEnded? i width i.size offset
    | none, none => some []
  let imports ← words.mapM (lookup? i offset? wide)
  let slots ← offset? addressTable
  let _ ← zeroEnded? i width i.size slots
  return imports.filterMap id

/-- Reads the libraries of the import directory, up to the blank entry that ends it. -/
def libraries? (i : Image) (offset? : Nat → Option Nat) (wide : Bool) :
    Nat → Nat → Option (List Import)
  | 0, _ => none
  | fuel + 1, start => do
    match ← i.fields? .little start [4, 4, 4, 4, 4] with
    | [0, 0, 0, 0, 0] => return []
    | [lookupTable, _, _, name, addressTable] =>
      let imports ← libraryImports? i offset? wide lookupTable name addressTable
      let rest ← libraries? i offset? wide fuel (start + 20)
      return imports ++ rest
    | _ => none

/-! ### Directories that are only checked -/

/-- Whether the debug directory can be read. If its first entry is a reference to a file with debug
information, the reference has to lie within the file. -/
def debugFits (i : Image) (offset? : Nat → Option Nat) (d : Directory) : Bool :=
  let entry := do
    let start ← offset? d.address
    i.fields? .little start [4, 4, 2, 2, 4, 4, 4, 4]
  match entry with
  | some [_, _, _, _, kind, size, _, offset] =>
    kind != 2 ||
      24 ≤ size &&
        match i.number? .little offset 4 with
        | none => false
        | some signature => signature != 0x53445352 || i.covers offset size
  | _ => false

/-- Whether the unwinding directory is a table of whole entries that begins at a multiple of four
bytes. -/
def unwindingFits (offset? : Nat → Option Nat) (d : Directory) : Bool :=
  d.size % 12 = 0 && (offset? d.address).any (· % 4 = 0)

/-- Whether certificates follow each other from `offset` up to `stop`, each of a known revision and
kind and each beginning at a multiple of eight bytes. -/
def certificatesFit (i : Image) (stop : Nat) : Nat → Nat → Bool
  | 0, _ => true
  | fuel + 1, offset =>
    if offset < stop then
      match i.fields? .little offset [4, 2, 2] with
      | some [length, revision, kind] =>
        let next := offset + 8 + (length - 8)
        next ≤ i.size && (revision = 0x100 || revision = 0x200) && (1 ≤ kind && kind ≤ 4) &&
          certificatesFit i stop fuel ((next + 7) / 8 * 8)
      | _ => false
    else true

/-- Whether the directories hold no information that breaks its rules. The certificates are given by
their position in the file. -/
def directoriesFit (i : Image) (machine : Nat) (h : OptionalHeader) (offset? : Nat → Option Nat) :
    Bool :=
  (h.directory? 6).all (debugFits i offset?) &&
    (machine != 0x8664 || (h.directory? 3).all (unwindingFits offset?)) &&
    (h.directory? 4).all fun d =>
      d.address + d.size ≤ i.size && certificatesFit i (d.address + d.size) i.size d.address

end Pe

/-- A PE file. -/
structure Pe where
  machine : Nat
  imageBase : Nat
  entry : Nat
  sections : List Pe.SectionEntry
  exports : List Pe.Export
  imports : List Pe.Import

namespace Pe

/-- Reads a file. -/
def read? (i : Image) : Option Pe := do
  let start ← i.number? .little 0x3c 4
  let signature ← i.number? .little start 4
  if signature ≠ 0x4550 ∨ ¬ i.covers 64 64 then none
  let coff ← Coff.Header.read? i (start + 4)
  let table := start + 4 + Coff.Header.width
  let optional ←
    if coff.optionalSize = 0 then some none
    else (OptionalHeader.read? i table).map some
  let sections ← Coff.SectionEntry.table? i coff (table + coff.optionalSize)
  match optional with
  | none => return ⟨coff.machine, 0, 0, sections, [], []⟩
  | some h =>
    let offset? := SectionEntry.offset? sections h.fileAlignment
    let exports := match h.directory? 0 with
      | none => []
      | some d => Export.table i offset? d
    let imports ← match h.directory? 1 with
      | none => some []
      | some d => do libraries? i offset? h.wide i.size (← offset? d.address)
    if directoriesFit i coff.machine h offset? then
      return ⟨coff.machine, h.imageBase, h.entry, sections, exports, imports⟩
    else none

/-- The architecture that the header names. -/
def architecture (p : Pe) : Option Architecture :=
  match p.machine with
  | 0x14c => some ⟨"x86", 32, .little⟩
  | 0x8664 => some ⟨"x86_64", 64, .little⟩
  | 0x1c0 => some ⟨"arm", 32, .little⟩
  | 0xaa64 => some ⟨"arm64", 64, .little⟩
  | _ => none

/-- The section, by relative addresses. One without a size in memory has its size in the file. -/
def SectionEntry.toSection (s : SectionEntry) : Section :=
  ⟨.ofNat s.virtualAddress, .ofNat (if s.virtualSize = 0 then s.rawSize else s.virtualSize),
    .ofNat s.rawOffset⟩

/-- The section, by absolute addresses, as far as it has content both in memory and in the file. -/
def SectionEntry.stored (s : SectionEntry) (imageBase : Nat) : Section :=
  ⟨.ofNat (imageBase + s.virtualAddress), .ofNat (min s.rawSize (max s.virtualSize 1)),
    .ofNat s.rawOffset⟩

/-- The function symbol of an export, if it has a name and an address. -/
def Export.toSymbol? (e : Export) (imageBase : Nat) (sections : List SectionEntry)
    (fileSize : Nat) : Option Symbol :=
  let name := e.name.getD ""
  if e.address = 0 || name.isEmpty then none
  else
    some ⟨name, .ofNat (imageBase + e.address), none,
      sections.findSome? fun s => s.toSection.locate (.ofNat e.address) none fileSize⟩

/-- What the file says about its program. -/
def toObjectFile (p : Pe) (fileSize : Nat) : ObjectFile where
  architecture := p.architecture
  entry := .ofNat (p.imageBase + p.entry)
  routines := ObjectFile.collectRoutines <|
    p.imports.map fun r => (.ofNat (p.imageBase + r.address), r.name)
  symbols := p.exports.filterMap (·.toSymbol? p.imageBase p.sections fileSize)
  sections := p.sections.map (·.stored p.imageBase)

end Pe

end SymbolicPaths
