import SymbolicPaths.Object.Symbol
import SymbolicPaths.Text.Blank
import SymbolicPaths.Text.Decimal

/-!
# Archives

An archive is a sequence of members, each behind a header of its own. An archive says nothing about
a program, but it has to be well formed: every member has to be readable, and every symbol in its
index has to name a member.

There are three forms of index. In the plain form, numbers are big-endian and each symbol has the
position of its member. A second index of that name is a linker index, with little-endian numbers
and a table of members that the symbols count into. A ranlib index pairs the position of a name with
that of a member.
-/

namespace SymbolicPaths

namespace Archive

/-- What an archive begins with. -/
def magic : List UInt8 := "!<arch>\n".toUTF8.toList

/-- A member of an archive. -/
structure Member where
  /-- Where the header begins. -/
  start : Nat
  /-- The name in the header, with the blanks that fill it up. -/
  name : String
  /-- How many bytes follow the header. -/
  size : Nat
  /-- The length of the name in front of the content, and the name without the zero bytes after it,
  for a member whose name is kept there. -/
  longName : Option (Nat × String)

namespace Member

/-- The size of a member header. -/
def headerWidth : Nat := 60

/-- The length of the name in front of the content that a name in a header announces. -/
def nameLength? (name : String) : Option Nat :=
  match name.toList with
  | '#' :: '1' :: '/' :: digits =>
    Text.decimal? (digits.reverse.dropWhile (· = ' ')).reverse
  | _ => none

/-- The text of `length` bytes at `offset`. -/
def field? (i : Image) (offset length : Nat) : Option String := do
  String.fromUTF8? (← i.part? offset length).bytes

/-- Reads the member whose header begins at `start`. Its size is written in decimal digits with
white space after them. -/
def read? (i : Image) (start : Nat) : Option Member := do
  if i.size < start + headerWidth then none
  let name ← field? i start 16
  let digits ← field? i (start + 48) 10
  let size ← Text.decimal? (digits.toList.reverse.dropWhile Text.isWhiteSpace).reverse
  match nameLength? name with
  | none => return ⟨start, name, size, none⟩
  | some length =>
    let longName := (← field? i (start + headerWidth) length).toList
    let longName := (longName.reverse.dropWhile (· = '\x00')).reverse
    return ⟨start, name, size, some (length, String.ofList longName)⟩

/-- What follows the header and the name after it. -/
def content? (m : Member) (i : Image) : Option Image :=
  let length := (m.longName.map (·.1)).getD 0
  if length ≤ m.size then i.part? (m.start + headerWidth + length) (m.size - length) else none

/-- Whether the member is an index in the plain form, or a linker index. -/
def isIndex (m : Member) : Bool :=
  m.name = "/               "

/-- Whether the member is a ranlib index. -/
def isRanlib (m : Member) : Bool :=
  !m.isIndex && m.longName.any fun (_, name) => name = "__.SYMDEF" || name = "__.SYMDEF SORTED"

/-- Whether the member holds the names that are too long for a header. -/
def isNames (m : Member) : Bool :=
  m.name = "//              "

end Member

/-- Reads the members from `offset` up to the end of the archive. They begin at even positions. -/
def members? (i : Image) (offset : Nat) : Option (List Member) :=
  if offset + 1 < i.size then do
    let start := offset + offset % 2
    let m ← Member.read? i start
    let rest ← members? i (start + Member.headerWidth + m.size)
    return m :: rest
  else some []
  termination_by i.size - offset
  decreasing_by simp only [Member.headerWidth]; omega

/-! ### Indexes -/

/-- Symbols with the positions of the members that define them. -/
abbrev Index := List (Nat × String)

/-- The texts of a table, in order: each ends before a zero byte or with the table. -/
def texts : List Char → List (List Char)
  | [] => []
  | c :: rest =>
    if c = '\x00' then [] :: texts rest
    else match texts rest with
      | [] => [[c]]
      | first :: others => (c :: first) :: others

/-- The texts from `offset` up to the end of an index. -/
def names? (i : Image) (offset : Nat) : Option (List String) := do
  let table ← Member.field? i offset (i.size - offset)
  return (texts table.toList).map String.ofList

/-- Reads `count` numbers of `width` bytes each. -/
def numbers? (i : Image) (order : Endianness) (width count offset : Nat) : Option (List Nat) :=
  if i.size / width < count then none
  else Image.records? (fun offset => i.number? order offset width) width count offset

/-- Reads an index in the plain form. -/
def plainIndex? (i : Image) : Option Index := do
  let count ← i.number? .big 0 4
  let positions ← numbers? i .big 4 count 4
  return positions.zip (← names? i (4 + 4 * count))

/-- Reads a linker index. Its symbols count the members from one. -/
def linkerIndex? (i : Image) : Option Index := do
  let memberCount ← i.number? .little 0 4
  let members ← numbers? i .little 4 memberCount 4
  let offset := 4 + 4 * memberCount
  let count ← i.number? .little offset 4
  let numbers ← numbers? i .little 2 count (offset + 4)
  let positions ← numbers.mapM fun n => if n = 0 then none else members[n - 1]?
  return positions.zip (← names? i (offset + 4 + 2 * count))

/-- Reads a ranlib index. -/
def ranlibIndex? (i : Image) : Option Index := do
  let size ← i.number? .little 0 4
  let nameSize ← i.number? .little (size + 4) 4
  let names ← StringTable.read? i (size + 8) nameSize
  Image.records? (fun offset => do
    match ← i.fields? .little offset [4, 4] with
    | [name, position] => return (position, ← names.get? name)
    | _ => none) 8 (size / 8) 4

/-- Reads the index of an archive. There can be one index, or a plain one and a linker index after
it, of which the latter counts. -/
def index? (i : Image) (members : List Member) : Option Index :=
  match members.filter (·.isIndex), members.filter (·.isRanlib) with
  | [], [] => some []
  | [m], [] => (m.content? i).bind plainIndex?
  | [m, n], [] => do
    let _ ← (m.content? i).bind plainIndex?
    (n.content? i).bind linkerIndex?
  | [], [m] => (m.content? i).bind ranlibIndex?
  | _, _ => none

/-- Whether the names that are too long for a header can be read. -/
def namesFit (i : Image) (members : List Member) : Bool :=
  (members.filter (·.isNames)).all fun m =>
    (m.content? i).any fun content => (String.fromUTF8? content.bytes).isSome

/-- The members that are neither an index nor a table of names. -/
def contents (members : List Member) : List Member :=
  members.filter fun m => !(m.isIndex || m.isRanlib || m.isNames)

/-- Whether a file is a well-formed archive. -/
def isWellFormed (i : Image) : Bool :=
  match members? i magic.length with
  | none => false
  | some members =>
    namesFit i members &&
      (index? i members).any fun index =>
        index.all fun (position, _) => (contents members).any (·.start = position)

end Archive

end SymbolicPaths
