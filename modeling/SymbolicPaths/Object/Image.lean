import SymbolicPaths.Records

/-!
# File images

An `Image` is the raw content of an object file. Its readers are total: each gives nothing when it
would have to look past the end.
-/

namespace SymbolicPaths

/-- The raw content of an object file. -/
structure Image where
  bytes : ByteArray

/-- The number that digits in base 256 stand for, in a byte order. -/
def Endianness.number : Endianness → List UInt8 → Nat
  | .little, digits => digits.foldr (fun b n => b.toNat + 256 * n) 0
  | .big, digits => digits.foldl (fun n b => 256 * n + b.toNat) 0

namespace Image

/-- The length of the file. -/
def size (i : Image) : Nat :=
  i.bytes.size

/-- The bytes from `start` up to, not including, `stop`, as far as there are any. -/
def slice (i : Image) (start stop : Nat) : List UInt8 :=
  (i.bytes.extract start stop).toList

/-- Whether a table of `length` bytes can be read at `offset`. An empty table may begin where the
file ends, but not after that. -/
def covers (i : Image) (offset length : Nat) : Bool :=
  offset + length ≤ i.size

/-- The number in the `width` bytes at `offset`. -/
def number? (i : Image) (order : Endianness) (offset width : Nat) : Option Nat :=
  if offset + width ≤ i.size then some (order.number (i.slice offset (offset + width))) else none

/-- The numbers in consecutive fields of the given widths. -/
def fields? (i : Image) (order : Endianness) : Nat → List Nat → Option (List Nat)
  | _, [] => some []
  | offset, width :: widths => do
    let n ← i.number? order offset width
    let rest ← i.fields? order (offset + width) widths
    return n :: rest

/-- How many bytes consecutive fields of the given widths take. -/
def span (widths : List Nat) : Nat :=
  widths.foldl (· + ·) 0

/-- Reads `count` records of `width` bytes each, the first of them at `offset`. -/
def records? {α : Type} (read : Nat → Option α) (width : Nat) : Nat → Nat → Option (List α)
  | 0, _ => some []
  | count + 1, offset => do
    let r ← read offset
    let rest ← records? read width count (offset + width)
    return r :: rest

/-- The position of the first zero byte at or after `offset`, or the end of the file. -/
def zeroFrom (i : Image) (offset : Nat) : Nat :=
  if h : offset < i.bytes.size then
    if i.bytes[offset] = 0 then offset else zeroFrom i (offset + 1)
  else offset
  termination_by i.bytes.size - offset

/-- The text that begins at `offset` and ends before the next zero byte or with the file. Where the
file ends, an empty text begins. -/
def text? (i : Image) (offset : Nat) : Option String :=
  if offset ≤ i.size then String.fromUTF8? (i.bytes.extract offset (i.zeroFrom offset)) else none

/-- The part of the file from `offset` on that takes `length` bytes. -/
def part? (i : Image) (offset length : Nat) : Option Image :=
  if i.covers offset length then some ⟨i.bytes.extract offset (offset + length)⟩ else none

end Image

/-- Texts that are referred to by the position at which they begin, each ended by a zero byte. -/
structure StringTable where
  image : Image

namespace StringTable

/-- The table without texts. -/
def empty : StringTable := ⟨⟨.empty⟩⟩

/-- Reads a table. It has to lie within the file and hold nothing but valid text. -/
def read? (i : Image) (offset size : Nat) : Option StringTable :=
  let bytes := i.bytes.extract offset (offset + size)
  if offset + size ≤ i.size && (String.fromUTF8? bytes).isSome then some ⟨⟨bytes⟩⟩ else none

/-- The text at a position. At the end of the table there is one only if the last text of the table
is not ended by a zero byte. -/
def get? (t : StringTable) (position : Nat) : Option String :=
  if position = t.image.size ∧ (t.image.slice (position - 1) position).all (· = 0) then none
  else t.image.text? position

/-- The text at a position, or the empty text if none begins there. -/
def get (t : StringTable) (position : Nat) : String :=
  (t.get? position).getD ""

end StringTable

end SymbolicPaths
