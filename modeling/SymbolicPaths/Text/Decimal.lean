/-!
# Decimal text

Numbers that object files write out in digits.
-/

namespace SymbolicPaths.Text

/-- The number that decimal digits stand for. One plus sign may precede them. -/
def decimal? (text : List Char) : Option Nat :=
  let digits := if text.head? = some '+' then text.drop 1 else text
  if digits.isEmpty || !digits.all Char.isDigit then none else some (Nat.ofDigitChars 10 digits 0)

end SymbolicPaths.Text
