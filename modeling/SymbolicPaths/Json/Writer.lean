import SymbolicPaths.Json.Text

/-!
# Writing JSON

Values are written as token sequences, which a layout then turns into text.
-/

namespace SymbolicPaths.Json

/-- The tokens of an array, from those of its members. -/
def array (members : List (List Token)) : List Token :=
  .openArray :: List.intercalate [.comma] members ++ [.closeArray]

/-- The tokens of an object, from those of its members. -/
def object (members : List (String × List Token)) : List Token :=
  .openObject ::
    List.intercalate [.comma] (members.map fun m => .text m.1 :: .colon :: m.2) ++ [.closeObject]

/-- The token of a number of 64 bits. -/
def word (n : UInt64) : List Token :=
  [.int n.toNat]

/-- The tokens of numbers of 64 bits. -/
def words (l : List UInt64) : List Token :=
  array (l.map word)

/-- The token of a text. -/
def text (s : String) : List Token :=
  [.text s]

/-- The tokens of texts. -/
def texts (l : List String) : List Token :=
  array (l.map text)

end SymbolicPaths.Json
