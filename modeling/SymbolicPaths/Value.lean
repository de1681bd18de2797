import SymbolicPaths.Text.Hex
import SymbolicPaths.Text.Lossy

/-!
# Solved values as text

A solved value is shown in hexadecimal when it is short and as text when it is long: from
`textThreshold` digits on, the bytes of its variable are more likely a string than a number. Zero
carries no information and is left out. A value has to fit the bytes that its variable occupies.
-/

namespace SymbolicPaths

/-- Values of at least this many hexadecimal digits are shown as text. -/
def textThreshold : Nat := 62

/-- A value that is too large for its variable. -/
structure Overflow where
  name : String
  value : Nat
  bits : UInt32
  deriving DecidableEq

/-- The text of an overflow. -/
def Overflow.message (o : Overflow) : String :=
  s!"Value {hexText o.value} of {o.name} does not fit in {o.bits.toNat} bits"

/-- The number of bytes that `bits` bits occupy. -/
def bytesForBits (bits : UInt32) : Nat :=
  (bits.toNat + 7) / 8

/-- The number of bytes of a value without leading zero bytes. -/
def byteLength (n : Nat) : Nat :=
  if n = 0 then 0 else n.log2 / 8 + 1

/-- The `count` lowest bytes of `n`, most significant first, in front of `rest`. -/
def lowBytes : (count : Nat) → (n : Nat) → (rest : List UInt8) → List UInt8
  | 0, _, rest => rest
  | count + 1, n, rest => lowBytes count (n / 256) (UInt8.ofNat n :: rest)

/-- The bytes of a value, most significant first and without leading zero bytes. -/
def bigEndian (n : Nat) : List UInt8 :=
  lowBytes (byteLength n) n []

/-- The bytes of a variable of `bits` bits that has the given value, most significant first. -/
def layout (bits : UInt32) (value : Nat) : List UInt8 :=
  lowBytes (bytesForBits bits) value []

/-- The textual form of the value that variable `name` of `bits` bits has, if it has one. -/
def decodeValue (name : String) (value : Nat) (bits : UInt32) : Except Overflow (Option String) :=
  if value = 0 then .ok none
  else if bytesForBits bits < byteLength value then .error ⟨name, value, bits⟩
  else if (hexDigits value).length < textThreshold then .ok (some (hexText value))
  else .ok (some (Text.ofBytes (layout bits value)))

end SymbolicPaths
