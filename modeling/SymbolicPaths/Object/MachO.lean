import SymbolicPaths.Object.Symbol

/-!
# Mach-O files

The parts of a Mach-O file that matter here: the header, the segments with their sections, the
symbol table, the entry point, and the program that tells the dynamic linker which addresses to bind
to which imported names.
-/

namespace SymbolicPaths

namespace MachO

/-- The width and byte order of the numbers in a file. -/
structure Layout where
  /-- Whether addresses and sizes take eight bytes rather than four. -/
  wide : Bool
  order : Endianness

/-- The width of an address. -/
def Layout.word (l : Layout) : Nat :=
  if l.wide then 8 else 4

/-- The layout that the first four bytes of a file announce. -/
def Layout.ofMagic? : Nat → Option Layout
  | 0xfeedface => some ⟨false, .big⟩
  | 0xcefaedfe => some ⟨false, .little⟩
  | 0xfeedfacf => some ⟨true, .big⟩
  | 0xcffaedfe => some ⟨true, .little⟩
  | _ => none

/-- A segment: a range of the file that is mapped into memory. -/
structure Segment where
  name : List UInt8
  address : UInt64
  fileOffset : UInt64
  sections : List Section

/-- Reads the section headers of a segment. The table ends early where the file does. -/
def readSections (i : Image) (l : Layout) : Nat → Nat → List Section
  | 0, _ => []
  | count + 1, start =>
    let w := l.word
    let widths := [16, 16, w, w, 4, 4, 4, 4, 4, 4, 4] ++ if l.wide then [4] else []
    match i.fields? l.order start widths with
    | some (_ :: _ :: address :: size :: offset :: _) =>
      ⟨.ofNat address, .ofNat size, .ofNat offset⟩
        :: readSections i l count (start + Image.span widths)
    | _ => []

/-- Reads the segment whose command begins at `start`. Its content has to lie within the file. -/
def Segment.read? (i : Image) (l : Layout) (wide : Bool) (start : Nat) : Option Segment := do
  let w := if wide then 8 else 4
  match ← i.fields? l.order (start + 24) [w, w, w, w, 4, 4, 4, 4] with
  | [address, _, fileOffset, fileSize, _, _, count, _] =>
    if fileSize ≠ 0 ∧ ¬ i.covers fileOffset fileSize then none
    let name := i.slice (start + 8) (start + 24)
    let table := start + if l.wide then 72 else 56
    return ⟨name, .ofNat address, .ofNat fileOffset, readSections i l (min count i.size) table⟩
  | _ => none

/-- A symbol. -/
structure SymbolEntry where
  name : String
  /-- The kind bits of the symbol. -/
  kind : Nat
  /-- Number of the section that defines the symbol; zero if none does. -/
  definedIn : Nat
  value : Address

/-- Whether the symbol is only referred to. -/
def SymbolEntry.isUndefined (s : SymbolEntry) : Bool :=
  s.definedIn = 0 && s.kind &&& 0x0e = 0

/-- Reads `count` symbols from `offset` on, whose names are found from `names` on. Symbols whose
name cannot be read are left out. -/
def readSymbols (i : Image) (l : Layout) (names : Nat) : Nat → Nat → List SymbolEntry
  | 0, _ => []
  | count + 1, offset =>
    match i.fields? l.order offset [4, 1, 1, 2, l.word] with
    | some [position, kind, definedIn, _, value] =>
      let rest := readSymbols i l names count (offset + 8 + l.word)
      match i.text? (names + position) with
      | some name => ⟨name, kind, definedIn, .ofNat value⟩ :: rest
      | none => rest
    | _ => []

/-! ### Load commands -/

/-- What is known of a file while its load commands are read. -/
structure Commands where
  segments : List Segment
  symbols : List SymbolEntry
  /-- Number of names of libraries read so far, the file itself included. -/
  libraries : Nat
  /-- Offset of the entry point in the file. -/
  entryOffset : Option Nat
  /-- Address of the entry point, taken from the registers that a thread starts with. -/
  threadEntry : Option Address
  /-- The ranges of the file that hold the eager and the lazy binding program. -/
  bindings : Option (FileRange × FileRange)

/-- How many bytes a load command of a given kind takes at least. Of a kind that is not known, only
the kind itself and the size are read. -/
def commandWidth (kind : Nat) : Nat :=
  match kind with
  | 0x1 => 56
  | 0x19 | 0x1a => 72
  | 0xb => 80
  | 0x22 | 0x80000022 => 48
  | 0x11 => 40
  | 0x80000035 => 32
  | 0x2 | 0xc | 0xd | 0x1b | 0x20 | 0x2c | 0x32 | 0x80000018 | 0x8000001f | 0x80000023
  | 0x80000028 => 24
  | 0x6 | 0x7 | 0x10 | 0x21 => 20
  | 0x3 | 0x4 | 0x5 | 0x9 | 0x16 | 0x1d | 0x1e | 0x24 | 0x25 | 0x26 | 0x29 | 0x2a | 0x2b | 0x2e
  | 0x2f | 0x30 | 0x80000033 | 0x80000034 => 16
  | 0xe | 0xf | 0x12 | 0x13 | 0x14 | 0x15 | 0x17 | 0x27 | 0x2d | 0x8000001c => 12
  | _ => 8

/-- The registers of a thread, four bytes each, seventy at most. -/
def registers? (i : Image) (l : Layout) (start : Nat) : Option (List Nat) := do
  let count ← i.number? l.order (start + 12) 4
  if 70 < count then none
  Image.records? (fun offset => i.number? l.order offset 4) 4 count (start + 16)

/-- The instruction pointer among the registers of a thread, which only some processors have at a
known place. A register that is not given is zero. -/
def instructionPointer? (processor : Nat) (registers : List Nat) : Option Address :=
  let narrow (index : Nat) : Address := .ofNat (registers.getD index 0)
  let wide (index : Nat) : Address := narrow index ||| narrow (index + 1) <<< 32
  match processor with
  | 7 => some (narrow 10)
  | 0x01000007 => some (wide 32)
  | 12 => some (narrow 15)
  | 0x0100000c => some (wide 64)
  | _ => none

/-- Reads the load command at `start` into what is already known. -/
def Commands.read? (c : Commands) (i : Image) (l : Layout) (processor start kind : Nat) :
    Option Commands :=
  match kind with
  | 0x1 => do
    return { c with segments := c.segments ++ [← Segment.read? i l false start] }
  | 0x19 => do
    return { c with segments := c.segments ++ [← Segment.read? i l true start] }
  | 0x2 => do
    match ← i.fields? l.order (start + 8) [4, 4, 4, 4] with
    | [offset, count, names, _] =>
      if i.size < offset ∨ names < offset then none
      return { c with symbols := readSymbols i l names (min count i.size) offset }
    | _ => none
  | 0x4 => do
    let _ ← registers? i l start
    return c
  | 0x5 => do
    let registers ← registers? i l start
    if c.threadEntry.isSome then return c
    return { c with threadEntry := some (← instructionPointer? processor registers) }
  | 0x80000028 => do
    let offset ← i.number? l.order (start + 8) 8
    return { c with entryOffset := c.entryOffset <|> some offset }
  | 0x22 | 0x80000022 => do
    match ← i.fields? l.order (start + 8) [4, 4, 4, 4, 4, 4, 4, 4, 4, 4] with
    | [_, _, eager, eagerSize, _, _, lazy, lazySize, _, _] =>
      return { c with bindings := some (program eager eagerSize, program lazy lazySize) }
    | _ => none
  | 0xc | 0x20 | 0x80000018 | 0x8000001f | 0x80000023 => do
    let _ ← i.text? (start + (← i.number? l.order (start + 8) 4))
    return { c with libraries := c.libraries + 1 }
  | 0xd | 0x8000001c => do
    let _ ← i.text? (start + (← i.number? l.order (start + 8) 4))
    return c
  | _ => some c
where
  /-- A binding program. One that does not lie within the file is empty. -/
  program (offset size : Nat) : FileRange :=
    if i.covers offset size then ⟨offset, offset + size⟩ else ⟨0, 0⟩

/-- Reads `count` load commands. Each has to lie within the file. -/
def Commands.readAll? (i : Image) (l : Layout) (processor : Nat) :
    Nat → Nat → Commands → Option Commands
  | 0, _, c => some c
  | count + 1, start, c => do
    match ← i.fields? l.order start [4, 4] with
    | [kind, size] =>
      if i.covers start size && i.covers start (commandWidth kind) then
        readAll? i l processor count (start + size) (← c.read? i l processor start kind)
      else none
    | _ => none

/-! ### Binding programs -/

/-- Reads a number in groups of seven bits, lowest first, each but the last marked by a high bit.
The number has to fit into 64 bits. The position after it goes along. -/
def groups? (i : Image) (shift : Nat) : Nat → Nat → Option (Nat × Nat)
  | 0, _ => none
  | fuel + 1, offset => do
    let byte ← i.number? .little offset 1
    if 63 ≤ shift ∧ 1 < byte then none
    if byte < 128 then return (byte <<< shift, offset + 1)
    let (high, next) ← groups? i (shift + 7) fuel (offset + 1)
    return ((byte - 128) <<< shift ||| high, next)

/-- Reads a number in groups of seven bits that may fill 64 bits. -/
def unsigned? (i : Image) (offset : Nat) : Option (Nat × Nat) :=
  groups? i 0 10 offset

/-- The position after the number with sign in groups of seven bits at `offset`, `count` of them at
most. A last group can only repeat the sign. -/
def afterSigned? (i : Image) : Nat → Nat → Option Nat
  | 0, _ => none
  | count + 1, offset => do
    let byte ← i.number? .little offset 1
    if count = 0 ∧ byte ≠ 0x00 ∧ byte ≠ 0x7f then none
    if byte < 128 then return offset + 1
    afterSigned? i count (offset + 1)

/-- The registers of a binding program. -/
structure Binder where
  name : String
  /-- Number of the library that provides the name. -/
  library : Nat
  segment : Nat
  offset : UInt64

/-- The registers at the start of a binding program. -/
def Binder.start : Binder := ⟨"", 0, 0, 0⟩

/-- A bound address and the name that it is bound to. -/
abbrev Binding := Address × String

/-- Binds the current address. -/
def Binder.bind? (b : Binder) (c : Commands) : Option Binding := do
  let segment ← c.segments[b.segment]?
  if c.libraries ≤ b.library then none
  return (segment.address + b.offset, b.name)

/-- Moves on by a number of bytes. -/
def Binder.skip (b : Binder) (n : Nat) : Binder :=
  { b with offset := b.offset + .ofNat n }

/-- Binds `count` addresses, each `stride` bytes after the one before. -/
def Binder.bindMany? (c : Commands) (stride : Nat) : Nat → Binder → Option (Binder × List Binding)
  | 0, b => some (b, [])
  | count + 1, b => do
    let first ← b.bind? c
    let (b, rest) ← bindMany? c stride count (b.skip stride)
    return (b, first :: rest)

/-- Executes the instruction `code` whose operands begin at `next`: the registers and the position
after it, and the addresses that it binds. -/
def Binder.execute? (b : Binder) (i : Image) (l : Layout) (c : Commands) (code next : Nat) :
    Option (Binder × Nat × List Binding) := do
  let immediate := code % 16
  match code / 16 with
  | 0x0 => return (.start, next, [])
  | 0x1 => return ({ b with library := immediate }, next, [])
  | 0x2 =>
    let (library, next) ← unsigned? i next
    return ({ b with library := library % 256 }, next, [])
  | 0x4 =>
    let name ← i.text? next
    return ({ b with name }, next + name.utf8ByteSize + 1, [])
  | 0x6 => return (b, ← afterSigned? i 10 next, [])
  | 0x7 =>
    let (offset, next) ← unsigned? i next
    return ({ b with segment := immediate, offset := .ofNat offset }, next, [])
  | 0x8 =>
    let (n, next) ← unsigned? i next
    return (b.skip n, next, [])
  | 0x9 => return (b.skip l.word, next, [← b.bind? c])
  | 0xa =>
    let binding ← b.bind? c
    let (n, next) ← unsigned? i next
    return (b.skip (n + l.word), next, [binding])
  | 0xb => return (b.skip (immediate * l.word + l.word), next, [← b.bind? c])
  | 0xc =>
    let (count, next) ← unsigned? i next
    let (gap, next) ← unsigned? i next
    let (b, bindings) ← bindMany? c (gap + l.word) count b
    return (b, next, bindings)
  | _ => return (b, next, [])

/-- Executes a binding program up to `stop`: the addresses that it binds, in order. -/
def Binder.run? (i : Image) (l : Layout) (c : Commands) (stop : Nat) :
    Nat → Nat → Binder → Option (List Binding)
  | 0, offset, _ => if offset < stop then none else some []
  | fuel + 1, offset, b =>
    if offset < stop then do
      let code ← i.number? .little offset 1
      let (b, next, bindings) ← b.execute? i l c code (offset + 1)
      let rest ← run? i l c stop fuel next b
      return bindings ++ rest
    else some []

/-- The addresses that a file wants bound, eager ones first. A file with a faulty binding program
binds none. -/
def Commands.bind (c : Commands) (i : Image) (l : Layout) : List Binding :=
  match c.bindings with
  | none => []
  | some (eager, lazy) =>
    let bindings := do
      let first ← Binder.run? i l c eager.stop i.size eager.start .start
      let second ← Binder.run? i l c lazy.stop i.size lazy.start .start
      return first ++ second
    bindings.getD []

end MachO

/-- A Mach-O file. -/
structure MachO where
  order : Endianness
  processor : Nat
  entry : Address
  segments : List MachO.Segment
  symbols : List MachO.SymbolEntry
  /-- The imported names with the addresses that they are bound to. -/
  bindings : List MachO.Binding

namespace MachO

/-- The address of the entry point. It is given by its offset in the file, relative to the segment
with the program text, which then has to be there; or else by the registers of a thread. -/
def Commands.entry? (c : Commands) : Option Address :=
  match c.entryOffset with
  | none => some (c.threadEntry.getD 0)
  | some offset => do
    let text ← c.segments.find? fun s => s.name.take 7 = "__TEXT".toUTF8.toList ++ [0]
    return text.address - text.fileOffset + .ofNat offset

/-- Reads a file. -/
def read? (i : Image) : Option MachO := do
  let l ← Layout.ofMagic? (← i.number? .big 0 4)
  let widths := [4, 4, 4, 4, 4, 4, 4] ++ if l.wide then [4] else []
  match ← i.fields? l.order 0 widths with
  | _ :: processor :: _ :: _ :: count :: size :: _ =>
    if size / 8 < count ∨ i.size < size then none
    let commands ← Commands.readAll? i l processor count (Image.span widths)
      ⟨[], [], 1, none, none, none⟩
    return ⟨l.order, processor, ← commands.entry?, commands.segments, commands.symbols,
      commands.bind i l⟩
  | _ => none

/-- The architecture that the header names. -/
def architecture (m : MachO) : Option Architecture :=
  match m.processor with
  | 0x01000007 => some ⟨"x86_64", 64, m.order⟩
  | 7 => some ⟨"x86", 32, m.order⟩
  | 12 => some ⟨"arm", 32, m.order⟩
  | 0x0100000c => some ⟨"arm64", 64, m.order⟩
  | _ => none

/-- A name without the underscores before it. -/
def bareName (name : String) : String :=
  String.ofList (name.toList.dropWhile (· = '_'))

/-- The sections of all segments, in order. -/
def sections (m : MachO) : List Section :=
  m.segments.flatMap (·.sections)

/-- The size of a section, cut at the last address. -/
def sizeInSpace (s : Section) : UInt64 :=
  .ofNat (min (s.address.toNat + s.size.toNat) (UInt64.size - 1) - s.address.toNat)

/-- The function symbol that a symbol table entry defines, if it does. Its code is looked for in all
sections. -/
def SymbolEntry.toSymbol? (sections : List Section) (fileSize : Nat) (s : SymbolEntry) :
    Option Symbol :=
  let name := bareName s.name
  if s.value = 0 || s.isUndefined || name.isEmpty then none
  else some ⟨name, s.value, none, sections.findSome? (·.locate s.value none fileSize)⟩

/-- What the file says about its program. -/
def toObjectFile (m : MachO) (fileSize : Nat) : ObjectFile where
  architecture := m.architecture
  entry := m.entry
  routines := ObjectFile.collectRoutines (m.bindings.map fun (a, name) => (a, bareName name))
  symbols := m.symbols.filterMap (SymbolEntry.toSymbol? m.sections fileSize)
  sections := m.sections.map fun s => { s with size := sizeInSpace s }

end MachO

end SymbolicPaths
