import SymbolicPaths.Text.Blank

/-!
# Text from arbitrary bytes

Reads bytes as UTF-8 and leaves out what is ill-formed. The reader is a machine that takes one byte
at a time. Between characters a byte starts one or is dropped. Inside a character the next byte has
to lie in a range; if it does not, the bytes of the unfinished character are dropped and the byte is
looked at afresh, so that a well-formed character after a broken one is never lost.
-/

namespace SymbolicPaths.Text

/-- A character whose last bytes are still to come. -/
structure Unfinished where
  /-- The bits read so far. -/
  code : Nat
  /-- The least byte that may come next. -/
  low : UInt8
  /-- The greatest byte that may come next. -/
  high : UInt8
  /-- The bytes that may follow the next one. -/
  more : Nat
  deriving DecidableEq

/-- The character that a byte begins, for a byte that begins one of several bytes. -/
def leadByte (b : UInt8) : Option Unfinished :=
  let bits (n : UInt8) := (b - n).toNat
  if b < 0xC2 then none
  else if b < 0xE0 then some ⟨bits 0xC0, 0x80, 0xBF, 0⟩
  else if b = 0xE0 then some ⟨bits 0xE0, 0xA0, 0xBF, 1⟩
  else if b = 0xED then some ⟨bits 0xE0, 0x80, 0x9F, 1⟩
  else if b < 0xF0 then some ⟨bits 0xE0, 0x80, 0xBF, 1⟩
  else if b = 0xF0 then some ⟨bits 0xF0, 0x90, 0xBF, 2⟩
  else if b < 0xF4 then some ⟨bits 0xF0, 0x80, 0xBF, 2⟩
  else if b = 0xF4 then some ⟨bits 0xF0, 0x80, 0x8F, 2⟩
  else none

/-- The machine on one byte between characters: the character it completes, and the one it leaves
unfinished. -/
def takeFirst (b : UInt8) : Option Char × Option Unfinished :=
  if b < 0x80 then (some (Char.ofNat b.toNat), none) else (none, leadByte b)

/-- The machine on one byte. -/
def takeByte : Option Unfinished → UInt8 → Option Char × Option Unfinished
  | none, b => takeFirst b
  | some u, b =>
    if u.low ≤ b ∧ b ≤ u.high then
      let code := u.code * 64 + (b - 0x80).toNat
      match u.more with
      | 0 => (some (Char.ofNat code), none)
      | more + 1 => (none, some ⟨code, 0x80, 0xBF, more⟩)
    else takeFirst b

/-- The well-formed characters of a byte sequence, from the middle of a character on. -/
def decodeFrom (u : Option Unfinished) : List UInt8 → List Char
  | [] => []
  | b :: rest =>
    let (c, u) := takeByte u b
    c.toList ++ decodeFrom u rest

/-- The well-formed characters of a byte sequence. -/
def decodeLossy (bytes : List UInt8) : List Char :=
  decodeFrom none bytes

/-- A byte sequence as readable text: without ill-formed bytes, blanks at the end, and NULs. -/
def ofBytes (bytes : List UInt8) : String :=
  String.ofList ((trimEnd (decodeLossy bytes)).filter (· != '\x00'))

end SymbolicPaths.Text
