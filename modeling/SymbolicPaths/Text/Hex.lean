/-!
# Hexadecimal text

Addresses and solved values are shown in lower-case hexadecimal without leading zeros, so that a
text has exactly one reading as a number.
-/

namespace SymbolicPaths

/-- The address of a machine instruction, a basic block or a memory cell. -/
abbrev Address := UInt64

/-- Lower-case hexadecimal digits of `n`, most significant first and without leading zeros. Zero is
the single digit `0`. -/
def hexDigits (n : Nat) : String :=
  String.ofList (Nat.toDigits 16 n)

/-- `hexDigits` behind the usual `0x`. -/
def hexText (n : Nat) : String :=
  "0x" ++ hexDigits n

/-- An address as it appears in messages. -/
def Address.hex (a : Address) : String :=
  hexText a.toNat

end SymbolicPaths
