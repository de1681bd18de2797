/-!
# Inflating

Compressed data is a sequence of blocks. A block is stored as it is, or written in a prefix code for
bytes and for copies of what came before; the code is a fixed one, or stands at the front of the
block. Bits are numbered from the lowest bit of a byte up.

What has been produced is kept even when the data turns out to be damaged, because whoever reads it
may have no use for the rest.
-/

namespace SymbolicPaths.Gzip

/-- Why inflating stopped. -/
inductive Damage where
  /-- The data ends too early. -/
  | ended
  /-- The data is no compressed data. -/
  | corrupt
  deriving DecidableEq

/-- Compressed data that is being inflated. -/
structure Inflater where
  /-- How many bits of the first byte have been read. -/
  used : Nat
  /-- The data still to be read. -/
  input : List UInt8
  /-- What has been produced. -/
  output : Array UInt8

/-- The byte `distance` bytes back. Before the first byte there are only zeros. -/
def Inflater.back (s : Inflater) (distance : Nat) : UInt8 :=
  if s.output.size < distance then 0 else s.output.getD (s.output.size - distance) 0

/-- A step of inflating. -/
abbrev Inflation := ExceptT Damage (StateM Inflater)

namespace Inflation

/-- Reads a bit. -/
def bit : Inflation Nat := do
  let s ← get
  match s.input with
  | [] => throw .ended
  | b :: rest =>
    if s.used < 7 then set { s with used := s.used + 1 }
    else set { s with used := 0, input := rest }
    return (b.toNat >>> s.used) % 2

/-- Reads a number of so many bits, lowest first. -/
def bits : Nat → Inflation Nat
  | 0 => return 0
  | n + 1 => do
    let low ← bit
    let high ← bits n
    return low + 2 * high

/-- Drops the rest of a byte of which some bits have been read. -/
def align : Inflation Unit :=
  modify fun s => if s.used = 0 then s else { s with used := 0, input := s.input.tail }

/-- Reads a byte, from a boundary between bytes. -/
def byte : Inflation UInt8 := do
  let s ← get
  match s.input with
  | [] => throw .ended
  | b :: rest =>
    set { s with input := rest }
    return b

/-- Produces a byte. -/
def produce (b : UInt8) : Inflation Unit :=
  modify fun s => { s with output := s.output.push b }

/-! ### Stored blocks -/

/-- Produces `length` bytes of the data as they are. -/
def copyStored (length : Nat) : Inflation Unit := do
  let s ← get
  set { s with
    input := s.input.drop length
    output := s.output ++ (s.input.take length).toArray }
  if s.input.length < length then throw .ended

/-- Inflates a stored block: its length, the complement of that, and so many bytes. -/
def storedBlock : Inflation Unit := do
  align
  let a ← byte
  let b ← byte
  let c ← byte
  let d ← byte
  if a ^^^ c = 0xff ∧ b ^^^ d = 0xff then copyStored (a.toNat + 256 * b.toNat)
  else throw .corrupt

/-! ### Prefix codes -/

end Inflation

/-- A prefix code: how many symbols have a code of each length from one bit up, and the symbols in
the order of their codes. Codes of one length are consecutive numbers, and longer ones follow. -/
structure PrefixCode where
  counts : List Nat
  symbols : Array Nat

namespace PrefixCode

/-- The longest code, in bits. -/
def longest : Nat := 15

/-- The code in which each symbol has a code of the given length, or none if that is zero. -/
def ofLengths (lengths : List Nat) : PrefixCode where
  counts := (List.range' 1 longest).map fun n => lengths.count n
  symbols := ((List.range' 1 longest).flatMap fun n =>
    (lengths.zipIdx.filter (·.1 = n)).map (·.2)).toArray

/-- Whether every sequence of bits begins with the code of a symbol. -/
def isComplete (c : PrefixCode) : Bool :=
  c.counts.foldl (fun total n => (total + n) * 2) 0 = 1 <<< (longest + 1)

/-- Whether the code may be used: it may leave sequences of bits without a meaning only if it has no
symbol at all, or a single one with a code of one bit. -/
def isUsable (c : PrefixCode) : Bool :=
  c.isComplete || c.symbols.size = 0 || c.symbols.size = 1 && c.counts.head? = some 1

/-- Reads the code of a symbol bit by bit, given the counts for the lengths to come. Of the codes
with the bits read so far, `first` is the lowest, and `index` symbols have shorter codes. Bits that
no code goes on with are corrupt at once. -/
def readFrom (c : PrefixCode) : List Nat → (code first index : Nat) → Inflation Nat
  | [], _, _, _ => throw .corrupt
  | count :: rest, code, first, index => do
    let code := code + (← Inflation.bit)
    if code < first + count then
      match c.symbols[index + (code - first)]? with
      | some symbol => return symbol
      | none => throw .corrupt
    else if rest.all (· = 0) then throw .corrupt
    else c.readFrom rest (2 * code) (2 * (first + count)) (index + count)

/-- Reads a symbol. -/
def read (c : PrefixCode) : Inflation Nat :=
  c.readFrom c.counts 0 0 0

end PrefixCode

/-- The codes of a block: one for bytes, lengths of copies and the end of the block, and one for
distances. -/
structure BlockCodes where
  main : PrefixCode
  distance : PrefixCode

namespace BlockCodes

/-- The codes of blocks that bring none. -/
def fixed : BlockCodes where
  main := .ofLengths (List.replicate 144 8 ++ List.replicate 112 9 ++ List.replicate 24 7 ++
    List.replicate 8 8)
  distance := .ofLengths (List.replicate 32 5)

/-- The order in which the lengths of the code for code lengths are given. -/
def lengthOrder : List Nat :=
  [16, 17, 18, 0, 8, 7, 9, 6, 10, 5, 11, 4, 12, 3, 13, 2, 14, 1, 15]

/-- Reads code lengths until there are `count`. The lengths read so far are given in reverse. -/
def readLengths (code : PrefixCode) (count : Nat) : (fuel : Nat) → List Nat → Inflation (List Nat)
  | 0, _ => throw .corrupt
  | fuel + 1, lengths => do
    if lengths.length < count then
      let symbol ← code.read
      if symbol < 16 then readLengths code count fuel (symbol :: lengths)
      else if symbol = 16 then
        match lengths with
        | [] => throw .corrupt
        | last :: _ =>
          let times := 3 + (← Inflation.bits 2)
          readLengths code count fuel (List.replicate times last ++ lengths)
      else
        let (least, extra) := if symbol = 17 then (3, 3) else (11, 7)
        let times := least + (← Inflation.bits extra)
        readLengths code count fuel (List.replicate times 0 ++ lengths)
    else if lengths.length = count then return lengths.reverse
    else throw .corrupt

/-- Reads the codes at the front of a block. There are at most as many symbols as have a meaning,
and the code for code lengths has to be complete. -/
def read : Inflation BlockCodes := do
  let mainCount := 257 + (← Inflation.bits 5)
  let distanceCount := 1 + (← Inflation.bits 5)
  let given := 4 + (← Inflation.bits 4)
  if 286 < mainCount ∨ 30 < distanceCount then throw .corrupt
  let written ← (lengthOrder.take given).mapM fun symbol => return (symbol, ← Inflation.bits 3)
  let lengths := (List.range 19).map fun symbol => (written.lookup symbol).getD 0
  let code := PrefixCode.ofLengths lengths
  if !code.isComplete then throw .corrupt
  let count := mainCount + distanceCount
  let lengths ← readLengths code count (count + 1) []
  let main := PrefixCode.ofLengths (lengths.take mainCount)
  let distance := PrefixCode.ofLengths (lengths.drop mainCount)
  if main.isUsable && distance.isUsable then return ⟨main, distance⟩ else throw .corrupt

end BlockCodes

/-! ### Copies -/

/-- The shortest length for each length symbol, and how many bits are added to it. -/
def copyLengths : List (Nat × Nat) := [
  (3, 0), (4, 0), (5, 0), (6, 0), (7, 0), (8, 0), (9, 0), (10, 0), (11, 1), (13, 1), (15, 1),
  (17, 1), (19, 2), (23, 2), (27, 2), (31, 2), (35, 3), (43, 3), (51, 3), (59, 3), (67, 4), (83, 4),
  (99, 4), (115, 4), (131, 5), (163, 5), (195, 5), (227, 5), (258, 0)]

/-- The shortest distance for each distance symbol, and how many bits are added to it. -/
def copyDistances : List (Nat × Nat) := [
  (1, 0), (2, 0), (3, 0), (4, 0), (5, 1), (7, 1), (9, 2), (13, 2), (17, 3), (25, 3), (33, 4),
  (49, 4), (65, 5), (97, 5), (129, 6), (193, 6), (257, 7), (385, 7), (513, 8), (769, 8), (1025, 9),
  (1537, 9), (2049, 10), (3073, 10), (4097, 11), (6145, 11), (8193, 12), (12289, 12), (16385, 13),
  (24577, 13)]

namespace Inflation

/-- Reads the number that a symbol stands for according to a table. -/
def tabled (table : List (Nat × Nat)) (symbol : Nat) : Inflation Nat :=
  match table[symbol]? with
  | some (least, extra) => return least + (← bits extra)
  | none => throw .corrupt

/-- Produces `length` bytes again, each the one `distance` bytes back. -/
def copyBack (distance : Nat) : (length : Nat) → Inflation Unit
  | 0 => return ()
  | length + 1 => do
    produce ((← get).back distance)
    copyBack distance length

/-- Inflates a coded block up to its end. -/
def codedBlock (codes : BlockCodes) : (fuel : Nat) → Inflation Unit
  | 0 => throw .corrupt
  | fuel + 1 => do
    let symbol ← codes.main.read
    if symbol < 256 then
      produce (.ofNat symbol)
      codedBlock codes fuel
    else if symbol = 256 then return ()
    else
      let length ← tabled copyLengths (symbol - 257)
      let distance ← tabled copyDistances (← codes.distance.read)
      copyBack distance length
      codedBlock codes fuel

/-- How many bits are still to be read, at most. -/
def remaining : Inflation Nat :=
  return 8 * (← get).input.length

/-- Inflates blocks up to the last one. -/
def blocks : (fuel : Nat) → Inflation Unit
  | 0 => throw .corrupt
  | fuel + 1 => do
    let last ← bit
    match ← bits 2 with
    | 0 => storedBlock
    | 1 => codedBlock .fixed ((← remaining) + 1)
    | 2 =>
      let codes ← BlockCodes.read
      codedBlock codes ((← remaining) + 1)
    | _ => throw .corrupt
    if last = 1 then return () else blocks fuel

end Inflation

/-- Inflated data. -/
structure Inflated where
  output : List UInt8
  /-- What follows the compressed data, or why it could not be inflated any further. -/
  rest : Except Damage (List UInt8)

/-- What a reader gets of damaged data: output is handed over in windows of this size, each as soon
as there is output for the next one. The window in which the damage shows is lost. -/
def windowSize : Nat := 32768

/-- Inflates data. -/
def inflate (data : List UInt8) : Inflated :=
  let (result, s) := (Inflation.blocks (8 * data.length + 1)).run ⟨0, data, #[]⟩
  match result with
  | .ok () => ⟨s.output.toList, .ok (if s.used = 0 then s.input else s.input.tail)⟩
  | .error .ended => ⟨s.output.toList, .error .ended⟩
  | .error .corrupt =>
    ⟨s.output.toList.take ((s.output.size - 1) / windowSize * windowSize), .error .corrupt⟩

end SymbolicPaths.Gzip
