import SymbolicPaths.Object.Symbol

/-!
# ELF files

The parts of an ELF file that matter here: the header, the section table, the symbol table with its
names, and the procedure linkage relocations with the dynamic symbols that they refer to.

A file whose tables do not fit into it, or whose names are no valid text, is not read at all.
-/

namespace SymbolicPaths

namespace Elf

/-- The width and byte order of the numbers in a file. -/
structure Layout where
  /-- Whether addresses and sizes take eight bytes rather than four. -/
  wide : Bool
  order : Endianness

/-- The width of an address. -/
def Layout.word (l : Layout) : Nat :=
  if l.wide then 8 else 4

/-- The file header. -/
structure Header where
  layout : Layout
  machine : Nat
  entry : Address
  segmentOffset : Nat
  segmentCount : Nat
  sectionOffset : Nat
  sectionCount : Nat
  /-- Index of the section that holds the names of the sections. -/
  namesIndex : Nat

/-- Reads the header. -/
def Header.read? (i : Image) : Option Header := do
  let wide ← match ← i.number? .little 4 1 with
    | 1 => some false
    | 2 => some true
    | _ => none
  let order ← match ← i.number? .little 5 1 with
    | 1 => some Endianness.little
    | 2 => some Endianness.big
    | _ => none
  let l : Layout := ⟨wide, order⟩
  match ← i.fields? order 16 [2, 2, 4, l.word, l.word, l.word, 4, 2, 2, 2, 2, 2, 2] with
  | [_, machine, _, entry, segments, sections, _, _, _, segmentCount, _, sectionCount, names] =>
    return ⟨l, machine, .ofNat entry, segments, segmentCount, sections, sectionCount, names⟩
  | _ => none

/-- A range of the file that is mapped into memory, or that holds the dynamic table. -/
structure Segment where
  kind : Nat
  offset : Nat
  address : Nat
  fileSize : Nat
  memorySize : Nat

namespace Segment

/-- The size of a segment header. -/
def width (l : Layout) : Nat :=
  if l.wide then 56 else 32

/-- Reads a segment header. -/
def read? (i : Image) (l : Layout) (start : Nat) : Option Segment := do
  if l.wide then
    match ← i.fields? l.order start [4, 4, 8, 8, 8, 8, 8, 8] with
    | [kind, _, offset, address, _, fileSize, memorySize, _] =>
      return ⟨kind, offset, address, fileSize, memorySize⟩
    | _ => none
  else
    match ← i.fields? l.order start [4, 4, 4, 4, 4, 4, 4, 4] with
    | [kind, offset, address, _, fileSize, memorySize, _, _] =>
      return ⟨kind, offset, address, fileSize, memorySize⟩
    | _ => none

/-- Reads the segment table. -/
def table? (i : Image) (h : Header) : Option (List Segment) :=
  if h.segmentCount ≤ i.size / width h.layout then
    Image.records? (read? i h.layout) (width h.layout) h.segmentCount h.segmentOffset
  else none

/-- Where in the file the content at an address is stored: the first mapped segment around the
address tells, unless its offset leads past the last number. -/
def locate? (segments : List Segment) (address : Nat) : Option Nat := do
  let s ← segments.find? fun s =>
    s.kind = 1 ∧ s.address ≤ address ∧ address - s.address < s.memorySize
  let offset := s.offset + (address - s.address)
  if offset < UInt64.size then return offset else none

end Segment

/-- A section header. -/
structure SectionHeader where
  kind : Nat
  address : UInt64
  offset : UInt64
  size : UInt64
  /-- Index of the section that this one refers to. -/
  link : Nat
  entrySize : Nat

namespace SectionHeader

/-- The kind of a section without content in the file. -/
def noBits : Nat := 8

/-- The size of a section header. -/
def width (l : Layout) : Nat :=
  if l.wide then 64 else 40

/-- Reads a section header. -/
def read? (i : Image) (l : Layout) (start : Nat) : Option SectionHeader := do
  let w := l.word
  match ← i.fields? l.order start [4, 4, w, w, w, w, 4, 4, w, w] with
  | [_, kind, _, address, offset, size, link, _, _, entrySize] =>
    return ⟨kind, .ofNat address, .ofNat offset, .ofNat size, link, entrySize⟩
  | _ => none

/-- Reads the section table. A table at offset zero is no table; one that claims to be empty has its
true length in the size of its first header, which is always there. -/
def table? (i : Image) (h : Header) : Option (List SectionHeader) :=
  if h.sectionOffset = 0 then some []
  else do
    let first ← read? i h.layout h.sectionOffset
    let count := if h.sectionCount = 0 then first.size.toNat else h.sectionCount
    if i.size / width h.layout < count then none
    let rest ← Image.records? (read? i h.layout) (width h.layout) (count - 1)
      (h.sectionOffset + width h.layout)
    return first :: rest

/-- Whether the section lies within a file, and within the address space. A section without content
always does. -/
def fits (s : SectionHeader) (fileSize : Nat) : Bool :=
  s.kind = noBits ∨ s.size = 0 ∨
    s.offset.toNat + s.size.toNat ≤ fileSize ∧ s.address.toNat + s.size.toNat < UInt64.size

/-- The texts in the section with a given index. An index past the table stands for a table without
texts, and the reserved index `0xffff` for the link of the first section. -/
def strings? (i : Image) (sections : List SectionHeader) (index : Nat) : Option StringTable := do
  let index := if index = 0xffff then (sections.head?.map (·.link)).getD index else index
  match sections[index]? with
  | none => return .empty
  | some s =>
    if s.fits i.size then StringTable.read? i s.offset.toNat s.size.toNat else none

end SectionHeader

/-- A symbol. -/
structure SymbolEntry where
  /-- Position of the name in the string table. -/
  name : Nat
  kind : Nat
  /-- Index of the section that defines the symbol; zero if none does. -/
  definedIn : Nat
  value : Address
  size : UInt64

namespace SymbolEntry

/-- The kind of a function symbol. -/
def function : Nat := 2

/-- The size of a symbol. -/
def width (l : Layout) : Nat :=
  if l.wide then 24 else 16

/-- Reads a symbol. -/
def read? (i : Image) (l : Layout) (start : Nat) : Option SymbolEntry := do
  if l.wide then
    match ← i.fields? l.order start [4, 1, 1, 2, 8, 8] with
    | [name, info, _, definedIn, value, size] =>
      return ⟨name, info % 16, definedIn, .ofNat value, .ofNat size⟩
    | _ => none
  else
    match ← i.fields? l.order start [4, 4, 4, 1, 1, 2] with
    | [name, value, size, info, _, definedIn] =>
      return ⟨name, info % 16, definedIn, .ofNat value, .ofNat size⟩
    | _ => none

/-- Reads a table of `count` symbols. -/
def table? (i : Image) (l : Layout) (offset count : Nat) : Option (List SymbolEntry) :=
  if i.covers offset (count * width l) then
    Image.records? (read? i l) (width l) count offset
  else none

end SymbolEntry

/-- A relocation. -/
structure Relocation where
  /-- The address that the relocation patches. -/
  slot : Address
  /-- Index of the symbol that it refers to. -/
  symbol : Nat

namespace Relocation

/-- The size of a relocation, with or without an explicit addend. -/
def width (l : Layout) (addend : Bool) : Nat :=
  if addend then 3 * l.word else 2 * l.word

/-- Reads a relocation. -/
def read? (i : Image) (l : Layout) (start : Nat) : Option Relocation := do
  match ← i.fields? l.order start [l.word, l.word] with
  | [slot, info] => return ⟨.ofNat slot, info / if l.wide then UInt32.size else UInt8.size⟩
  | _ => none

/-- Reads a table of relocations that takes `size` bytes. -/
def table? (i : Image) (l : Layout) (addend : Bool) (offset size : Nat) :
    Option (List Relocation) :=
  if size = 0 then some []
  else if i.covers offset size then
    Image.records? (read? i l) (width l addend) (size / width l addend) offset
  else none

end Relocation

/-! ### Dynamic linking -/

/-- An entry of the dynamic table. -/
structure DynamicEntry where
  tag : Nat
  value : Nat

namespace DynamicEntry

/-- Reads at most `count` entries, up to the one that ends the table. -/
def entries? (i : Image) (l : Layout) : Nat → Nat → Option (List DynamicEntry)
  | 0, _ => some []
  | count + 1, offset => do
    match ← i.fields? l.order offset [l.word, l.word] with
    | [tag, value] =>
      if tag = 0 then return []
      let rest ← entries? i l count (offset + 2 * l.word)
      return ⟨tag, value⟩ :: rest
    | _ => none

/-- Reads the dynamic table of the first segment that holds one. -/
def table? (i : Image) (l : Layout) (segments : List Segment) :
    Option (Option (List DynamicEntry)) :=
  match segments.find? (·.kind = 2) with
  | none => some none
  | some s =>
    if s.fileSize = 0 then some (some [])
    else if i.covers s.offset s.fileSize then
      (entries? i l (s.fileSize / (2 * l.word)) s.offset).map some
    else none

/-- The last value given for a tag, if any. -/
def value? (entries : List DynamicEntry) (tag : Nat) : Option Nat :=
  (entries.reverse.find? (·.tag = tag)).map (·.value)

/-- The number that a tag gives, zero without one. -/
def number (entries : List DynamicEntry) (tag : Nat) : Nat :=
  (value? entries tag).getD 0

/-- The file offset of the table whose address a tag gives, zero without one. -/
def offset (entries : List DynamicEntry) (segments : List Segment) (tag : Nat) : Nat :=
  ((value? entries tag).bind (Segment.locate? segments)).getD 0

end DynamicEntry

/-- The position after the last entry of a hash chain: entries are four bytes wide and the last one
of a chain is odd. The count of entries goes along. -/
def chainEnd? (i : Image) (order : Endianness) : Nat → Nat → Nat → Option Nat
  | 0, _, _ => none
  | fuel + 1, offset, count => do
    let hash ← i.number? order offset 4
    if hash % 2 = 1 then return count + 1
    chainEnd? i order fuel (offset + 4) (count + 1)

/-- The number of dynamic symbols according to a hash table of the newer form. -/
def bloomHashCount? (i : Image) (l : Layout) (offset : Nat) : Option Nat := do
  match ← i.fields? l.order offset [4, 4, 4] with
  | [buckets, first, filters] =>
    if buckets = 0 ∨ first = 0 ∨ filters = 0 then none
    let base := offset + 16 + filters * l.word
    if i.size < base + 4 * buckets then none
    let chains ← Image.records? (fun o => i.number? l.order o 4) 4 buckets base
    let last := chains.foldl max 0
    if last < first then return 0
    chainEnd? i l.order i.size (base + 4 * buckets + 4 * (last - first)) last
  | _ => none

/-- The width of the numbers in a hash table of the older form: two processors have wide ones. -/
def chainWidth (l : Layout) (machine : Nat) : Nat :=
  if l.wide && (machine = 22 || machine = 41) then 8 else 4

/-- The number of dynamic symbols that a hash table tells of, zero without one. -/
def hashCount? (i : Image) (l : Layout) (machine : Nat) (entries : List DynamicEntry)
    (segments : List Segment) : Option Nat :=
  match (DynamicEntry.value? entries 0x6ffffef5).bind (Segment.locate? segments) with
  | some offset => bloomHashCount? i l offset
  | none =>
    match (DynamicEntry.value? entries 4).bind (Segment.locate? segments) with
    | some offset => i.number? l.order (offset + 4) (chainWidth l machine)
    | none => some 0

/-- What the dynamic linker is told: the relocations of the procedure linkage table, and the symbols
and texts that they refer to. -/
structure Linkage where
  relocations : List Relocation
  symbols : List SymbolEntry
  names : StringTable

/-- Reads the dynamic linking tables. -/
def Linkage.read? (i : Image) (l : Layout) (machine : Nat) (segments : List Segment) :
    Option Linkage := do
  match ← DynamicEntry.table? i l segments with
  | none => return ⟨[], [], .empty⟩
  | some entries =>
    let number := DynamicEntry.number entries
    let offset := DynamicEntry.offset entries segments
    let names ← StringTable.read? i (offset 5) (number 10)
    let withAddend ← Relocation.table? i l true (offset 7) (number 8)
    let withoutAddend ← Relocation.table? i l false (offset 17) (number 18)
    let linkage ← Relocation.table? i l (number 20 = 7) (offset 23) (number 2)
    let hashed ← hashCount? i l machine entries segments
    let referred := ((withAddend ++ withoutAddend ++ linkage).map (·.symbol)).foldl max 0
    let count := if referred = 0 then hashed else max hashed (referred + 1)
    let symbols ← SymbolEntry.table? i l (offset 6) count
    return ⟨linkage, symbols, names⟩

/-- The imported routines by the address that is patched with theirs. -/
def Linkage.routines (l : Linkage) : List (Address × String) :=
  l.relocations.filterMap fun r =>
    match l.symbols[r.symbol]? with
    | none => none
    | some s =>
      let name := l.names.get s.name
      if name.isEmpty then none else some (r.slot, name)

end Elf

/-- An ELF file. -/
structure Elf where
  header : Elf.Header
  sections : List Elf.SectionHeader
  symbols : List Elf.SymbolEntry
  /-- The names of the symbols. -/
  names : StringTable
  linkage : Elf.Linkage

namespace Elf

/-- Reads the last symbol table, with the names of its symbols. -/
def readSymbols? (i : Image) (l : Layout) (sections : List SectionHeader) :
    Option (List SymbolEntry × StringTable) :=
  match sections.reverse.find? (·.kind = 2) with
  | none => some ([], .empty)
  | some s => do
    let symbols ← SymbolEntry.table? i l s.offset.toNat (s.size.toNat / s.entrySize)
    let names ← SectionHeader.strings? i sections s.link
    return (symbols, names)

/-- Whether the sections with relocations lie within the file. -/
def relocationsFit (i : Image) (l : Layout) (sections : List SectionHeader) : Bool :=
  sections.all fun s =>
    (s.kind != 4 && s.kind != 9) ||
      s.fits i.size &&
        (Relocation.table? i l (s.kind = 4) s.offset.toNat s.size.toNat).isSome

/-- Whether the first section of each kind that holds symbol versions lies within the file. -/
def versionsFit (i : Image) (sections : List SectionHeader) : Bool :=
  [0x6fffffff, 0x6ffffffd, 0x6ffffffe].all fun kind =>
    (sections.find? (·.kind = kind)).all fun s => i.covers s.offset.toNat s.size.toNat

/-- Reads a file. -/
def read? (i : Image) : Option Elf := do
  let header ← Header.read? i
  let segments ← Segment.table? i header
  let sections ← SectionHeader.table? i header
  let _ ← SectionHeader.strings? i sections header.namesIndex
  let (symbols, names) ← readSymbols? i header.layout sections
  let linkage ← Linkage.read? i header.layout header.machine segments
  if relocationsFit i header.layout sections && versionsFit i sections then
    return ⟨header, sections, symbols, names, linkage⟩
  else none

/-- The architecture that the header names. -/
def Header.architecture (h : Header) : Option Architecture :=
  let bits := if h.layout.wide then 64 else 32
  let name := match h.machine with
    | 62 => some "x86_64"
    | 3 => some "x86"
    | 183 => some "arm64"
    | 40 => some "arm"
    | 243 => some (if h.layout.wide then "riscv64" else "riscv32")
    | 21 => some "ppc64"
    | _ => none
  name.map fun n => ⟨n, bits, h.layout.order⟩

/-- The range of addresses of a section, as its header gives it. -/
def SectionHeader.toSection (s : SectionHeader) : Section :=
  ⟨s.address, s.size, s.offset⟩

/-- The size of a section, cut at the last address. -/
def SectionHeader.sizeInSpace (s : SectionHeader) : UInt64 :=
  .ofNat (min (s.address.toNat + s.size.toNat) (UInt64.size - 1) - s.address.toNat)

/-- The sections with content in the file, each cut at the last address. -/
def storedSections (sections : List SectionHeader) : List Section :=
  (sections.filter (·.kind != SectionHeader.noBits)).map fun s =>
    ⟨s.address, s.sizeInSpace, s.offset⟩

/-- The function symbol that a symbol table entry defines, if it does: it has to be a function with
a name, defined in some section. Its code is looked for in that section. -/
def SymbolEntry.toSymbol? (sections : List SectionHeader) (names : StringTable) (fileSize : Nat)
    (e : SymbolEntry) : Option Symbol :=
  let name := names.get e.name
  if e.kind != SymbolEntry.function || e.definedIn = 0 || name.isEmpty then none
  else
    let size := if e.size = 0 then none else some e.size
    some ⟨name, e.value, size,
      (sections[e.definedIn]?).bind fun s => s.toSection.locate e.value size fileSize⟩

/-- What the file says about its program. -/
def toObjectFile (e : Elf) (fileSize : Nat) : ObjectFile where
  architecture := e.header.architecture
  entry := e.header.entry
  routines := ObjectFile.collectRoutines e.linkage.routines
  symbols := e.symbols.filterMap (SymbolEntry.toSymbol? e.sections e.names fileSize)
  sections := storedSections e.sections

end Elf

end SymbolicPaths
