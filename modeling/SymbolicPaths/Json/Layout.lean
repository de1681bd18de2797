import SymbolicPaths.Json.Token

/-!
# JSON layouts

A token sequence is written either without any blanks, or with one member per line.
-/

namespace SymbolicPaths.Json

/-- Tokens without blanks between them. -/
def compact (tokens : List Token) : List UInt8 :=
  tokens.flatMap Token.bytes

/-- The end of a line and the indentation of the next one, two blanks per level. -/
def newLine (depth : Nat) : List UInt8 :=
  0x0a :: List.replicate (2 * depth) 0x20

/-- Whether a token opens an object or an array. -/
def Token.opens : Token → Bool
  | .openObject | .openArray => true
  | _ => false

/-- Whether a token closes an object or an array. -/
def Token.closes : Token → Bool
  | .closeObject | .closeArray => true
  | _ => false

/-- The blanks between two tokens, the second of which stands at the given depth: members stand on
lines of their own, but nothing stands between the brackets of what is empty. -/
def gap (depth : Nat) (previous token : Token) : List UInt8 :=
  if token.closes then if previous.opens then [] else newLine depth
  else if previous.opens || previous = .comma then newLine depth
  else if previous = .colon then [0x20]
  else []

/-- A text with one member per line, so far. -/
structure Page where
  /-- The text, in reverse. -/
  text : List UInt8
  depth : Nat
  /-- The last token written. -/
  last : Option Token

/-- Writes a token. -/
def Page.write (p : Page) (t : Token) : Page :=
  let depth := if t.closes then p.depth - 1 else p.depth
  let blanks := match p.last with
    | some previous => gap depth previous t
    | none => []
  ⟨(blanks ++ t.bytes).reverse ++ p.text, if t.opens then depth + 1 else depth, some t⟩

/-- Tokens with one member per line. -/
def pretty (tokens : List Token) : List UInt8 :=
  (tokens.foldl Page.write ⟨[], 0, none⟩).text.reverse

end SymbolicPaths.Json
