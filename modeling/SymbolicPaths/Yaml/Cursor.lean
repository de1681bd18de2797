/-!
# Positions in a YAML text

Blanks, lines and words of a text, and a `Cursor` that moves through them. Positions matter in YAML:
indentation is structure, and a key has to end on the line on which it begins.
-/

namespace SymbolicPaths.Yaml

/-! ### Characters -/

/-- Characters that may stand in a text. -/
def isAllowed (c : Char) : Bool :=
  let n := c.toNat
  n = 0x09 || n = 0x0a || n = 0x0d || 0x20 ≤ n && n ≤ 0x7e || n = 0x85 ||
    0xa0 ≤ n && n ≤ 0xfffd || 0x10000 ≤ n

/-- Blanks within a line. -/
def isBlank (c : Char) : Bool :=
  c = ' ' || c = '\t'

/-- Characters that end a line. -/
def isBreak (c : Char) : Bool :=
  c = '\n' || c = '\r' || c.toNat = 0x85 || c.toNat = 0x2028 || c.toNat = 0x2029

/-- Characters of names. -/
def isNameChar (c : Char) : Bool :=
  c.isAlphanum || c = '_' || c = '-'

/-- The mark that tells the encoding of a text. It may stand at the start of any line, where it
takes a column like other characters. -/
def byteOrderMark : Char := Char.ofNat 0xfeff

/-- Whether nothing, a blank or the end of a line comes. -/
def endsWord (next : Option Char) : Bool :=
  match next with
  | none => true
  | some c => isBlank c || isBreak c

/-- Whether nothing or the end of a line comes. -/
def endsLine (next : Option Char) : Bool :=
  match next with
  | none => true
  | some c => isBreak c

/-! ### Cursors -/

/-- A position in a text. -/
structure Cursor where
  /-- What comes after the position. -/
  rest : List Char
  /-- How many bytes come before it. -/
  index : Nat
  line : Nat
  column : Nat

namespace Cursor

/-- The start of a text. -/
def start (text : List Char) : Cursor := ⟨text, 0, 0, 0⟩

/-- The character so many places ahead. -/
def ahead (c : Cursor) (n : Nat) : Option Char :=
  c.rest[n]?

/-- The character that comes next. -/
def next (c : Cursor) : Option Char :=
  c.rest.head?

/-- Whether a given character comes next. -/
def sees (c : Cursor) (char : Char) : Bool :=
  c.next = some char

/-- How many bytes characters take. -/
def byteCount (chars : List Char) : Nat :=
  chars.foldl (fun n char => n + char.utf8Size) 0

/-- Moves on by so many characters of the line. -/
def skip (c : Cursor) (n : Nat) : Cursor :=
  ⟨c.rest.drop n, c.index + byteCount (c.rest.take n), c.line, c.column + n⟩

/-- The characters up to the first that fails a test. -/
def takeWhile (c : Cursor) (test : Char → Bool) : List Char :=
  c.rest.takeWhile test

/-- Moves on to the first character that fails a test. -/
def skipWhile (c : Cursor) (test : Char → Bool) : Cursor :=
  c.skip (c.takeWhile test).length

/-- How the end of the line that comes next is kept: most kinds are the same. -/
def lineBreak (c : Cursor) : Option Char :=
  match c.next with
  | some b =>
    if b.toNat = 0x2028 || b.toNat = 0x2029 then some b else if isBreak b then some '\n' else none
  | none => none

/-- Moves past the end of a line, which may take two characters. -/
def skipBreak (c : Cursor) : Cursor :=
  match c.rest with
  | '\r' :: '\n' :: rest => ⟨rest, c.index + 2, c.line + 1, 0⟩
  | b :: rest => if isBreak b then ⟨rest, c.index + b.utf8Size, c.line + 1, 0⟩ else c
  | [] => c

/-- Moves past blanks and a comment, if one comes. -/
def skipComment (c : Cursor) : Cursor :=
  let c := c.skipWhile isBlank
  if c.sees '#' then c.skipWhile (fun x => !isBreak x) else c

/-- Moves past blanks and a comment to the next line. Nothing else may come before it. -/
def finishLine? (c : Cursor) : Option Cursor :=
  let c := c.skipComment
  if endsLine c.next then some c.skipBreak else none

/-- Whether a line begins with three times the same character, as a word of its own. -/
def atMarker (c : Cursor) (char : Char) : Bool :=
  c.column = 0 && c.rest.take 3 = [char, char, char] && endsWord (c.ahead 3)

/-- Whether the start or the end of a document is marked here. -/
def atDocumentMarker (c : Cursor) : Bool :=
  c.atMarker '-' || c.atMarker '.'

end Cursor

end SymbolicPaths.Yaml
