import SymbolicPaths.Yaml.Scalar

/-!
# YAML tokens

`Token.scan?` takes a text apart. Indentation becomes tokens of its own, for the beginning and end
of block collections. That something is a key is only known when the colon after it is met; until
then it is remembered as a `KeyCandidate`, and the tokens that mark a key are inserted before it
afterwards.
-/

namespace SymbolicPaths.Yaml

/-- How a scalar is written. -/
inductive Style where
  | plain
  | quoted
  | literal
  | folded
  deriving DecidableEq

/-- A token of a YAML text. -/
inductive Token where
  /-- The version of YAML that a document is written in. -/
  | version (major minor : Nat)
  /-- An abbreviation for the beginning of tags. -/
  | tagHandle (handle : String) (expansion : List UInt8)
  | documentStart
  | documentEnd
  | sequenceStart
  | mappingStart
  /-- The end of a block collection. -/
  | blockEnd
  | openSequence
  | closeSequence
  | openMapping
  | closeMapping
  | comma
  /-- The sign of an entry of a block sequence. -/
  | entry
  | key
  | value
  | alias (name : String)
  | anchor (name : String)
  | tag (handle : String) (suffix : List UInt8)
  | scalar (text : String) (style : Style)
  deriving DecidableEq

/-! ### Names, tags and directives -/

/-- Reads the name of an anchor or alias. -/
def readName? (c : Cursor) : Option (String × Cursor) :=
  let name := c.takeWhile isNameChar
  let c := c.skip name.length
  let ended := endsWord c.next ||
    c.next.any fun x => ['?', ':', ',', ']', '\x7d', '%', '@', Char.ofNat 0x60].contains x
  if name.isEmpty || !ended then none else some (String.ofList name, c)

/-- Characters of tags. Between angle brackets there are a few more. -/
def isTagChar (bracketed : Bool) (c : Char) : Bool :=
  isNameChar c || ";/?:@&=+$.%!~*'()".toList.contains c ||
    bracketed && [',', '[', ']'].contains c

/-- How many bytes a character takes, according to its first one. -/
def characterWidth? (first : UInt8) : Option Nat :=
  if first &&& 0x80 = 0 then some 1
  else if first &&& 0xe0 = 0xc0 then some 2
  else if first &&& 0xf0 = 0xe0 then some 3
  else if first &&& 0xf8 = 0xf0 then some 4
  else none

/-- Replaces each percent sign and the two digits after it by the byte that the digits give, and
other characters by their bytes. The bytes of a character are given one after the other; `due` of
them are still to come. -/
def percentBytes? : (due : Nat) → List Char → Option (List UInt8)
  | due, '%' :: a :: b :: rest => do
    let byte := UInt8.ofNat (16 * (← hexValue? a) + (← hexValue? b))
    match due with
    | 0 => return byte :: (← percentBytes? ((← characterWidth? byte) - 1) rest)
    | due + 1 => if byte &&& 0xc0 = 0x80 then return byte :: (← percentBytes? due rest) else none
  | _, '%' :: _ => none
  | 0, [] => some []
  | 0, c :: rest => return (String.singleton c).toUTF8.toList ++ (← percentBytes? 0 rest)
  | _ + 1, _ => none

/-- The bytes of a tag whose percent signs have been replaced. A tag ends before a zero byte. -/
def tagBytes? (text : List Char) : Option (List UInt8) :=
  (percentBytes? 0 text).map fun bytes => bytes.takeWhile (· != 0)

/-- Reads the handle of a tag: an exclamation mark, and possibly a name and another one. -/
def readHandle? (c : Cursor) : Option (List Char × Cursor) :=
  if c.sees '!' then
    let name := (c.skip 1).takeWhile isNameChar
    let c := c.skip (1 + name.length)
    if c.sees '!' then some ('!' :: name ++ ['!'], c.skip 1) else some ('!' :: name, c)
  else none

/-- Reads a tag. Within brackets, a comma may follow it directly. -/
def readTag? (flow : Bool) (c : Cursor) : Option (Token × Cursor) := do
  let (token, c) ←
    if c.ahead 1 = some '<' then
      let c := c.skip 2
      let text := c.takeWhile (isTagChar true)
      let c := c.skip text.length
      if text.isEmpty || !c.sees '>' then none
      some (Token.tag "" (← tagBytes? text), c.skip 1)
    else
      let (handle, c) ← readHandle? c
      let text := c.takeWhile (isTagChar false)
      let c := c.skip text.length
      if 1 < handle.length && handle.getLast? = some '!' then
        if text.isEmpty then none
        some (Token.tag (String.ofList handle) (← tagBytes? text), c)
      else
        let suffix ← tagBytes? (handle.drop 1 ++ text)
        if suffix.isEmpty then some (Token.tag "" [0x21], c) else some (Token.tag "!" suffix, c)
  if flow && c.sees ',' || endsWord c.next then some (token, c) else none

/-- Reads a number of at most nine digits. -/
def readVersion? (c : Cursor) : Option (Nat × Cursor) :=
  let digits := c.takeWhile Char.isDigit
  if digits.isEmpty || 9 < digits.length then none
  else some (Nat.ofDigitChars 10 digits 0, c.skip digits.length)

/-- Reads a directive after its percent sign, with the rest of the line. -/
def readDirective? (c : Cursor) : Option (Token × Cursor) := do
  let name := c.takeWhile isNameChar
  let c := c.skip name.length
  if name.isEmpty || !endsWord c.next then none
  let c := c.skipWhile isBlank
  let (token, c) ←
    if name = "YAML".toList then
      let (major, c) ← readVersion? c
      if !c.sees '.' then none
      let (minor, c) ← readVersion? (c.skip 1)
      some (Token.version major minor, c)
    else if name = "TAG".toList then
      let (handle, c) ← readHandle? c
      if handle.getLast? ≠ some '!' || !c.next.any isBlank then none
      let c := c.skipWhile isBlank
      let text := c.takeWhile (isTagChar true)
      let c := c.skip text.length
      if text.isEmpty || !endsWord c.next then none
      some (Token.tagHandle (String.ofList handle) (← tagBytes? text), c)
    else none
  return (token, ← c.finishLine?)

/-! ### The scanner -/

/-- Something that turns out to be a key if a colon follows it. -/
structure KeyCandidate where
  /-- The number of tokens before it. -/
  token : Nat
  /-- Whether it can be nothing but a key. -/
  required : Bool
  index : Nat
  line : Nat
  column : Nat

/-- A text taken apart so far. -/
structure Scanner where
  cursor : Cursor
  tokens : Array Token
  /-- The column of the innermost block collection, or -1. -/
  indent : Int
  /-- The columns of the collections around it. -/
  outer : List Int
  /-- The key candidate at each level of brackets, innermost first. The last level is outside of all
  brackets. -/
  candidates : List (Option KeyCandidate)
  /-- Whether a key may begin here. -/
  keyAllowed : Bool

namespace Scanner

/-- The start of a text. -/
def start (text : List Char) : Scanner :=
  ⟨.start text, #[], -1, [], [none], true⟩

/-- Whether the scanner is within brackets. -/
def inFlow (s : Scanner) : Bool :=
  !s.candidates.tail.isEmpty

/-- Adds a token. -/
def emit (s : Scanner) (t : Token) : Scanner :=
  { s with tokens := s.tokens.push t }

/-- Moves on by so many characters of the line. -/
def skip (s : Scanner) (n : Nat) : Scanner :=
  { s with cursor := s.cursor.skip n }

/-- Moves past blanks, comments and empty lines. A tab is no blank where a key may begin, except
within brackets. A new line may begin with a key. -/
def skipBlanks : (fuel : Nat) → Scanner → Scanner
  | 0, s => s
  | fuel + 1, s =>
    let c := s.cursor
    let c := if c.column = 0 && c.sees byteOrderMark then c.skip 1 else c
    let tabs := s.inFlow || !s.keyAllowed
    let c := c.skipWhile fun x => x = ' ' || tabs && x = '\t'
    let c := if c.sees '#' then c.skipWhile (fun x => !isBreak x) else c
    if c.next.any isBreak then
      skipBlanks fuel { s with cursor := c.skipBreak, keyAllowed := s.keyAllowed || !s.inFlow }
    else { s with cursor := c }

/-- Forgets key candidates for which it is too late: a key ends on the line on which it begins, and
within 1024 bytes. A candidate that had to be a key must not be forgotten. -/
def dropStale? (s : Scanner) : Option Scanner := do
  let candidates ← s.candidates.mapM fun candidate =>
    match candidate with
    | none => some none
    | some k =>
      if k.line < s.cursor.line || k.index + 1024 < s.cursor.index then
        if k.required then none else some none
      else some (some k)
  return { s with candidates }

/-- Forgets the key candidate at the present level. -/
def dropCandidate? (s : Scanner) : Option Scanner :=
  match s.candidates with
  | some k :: rest => if k.required then none else some { s with candidates := none :: rest }
  | _ => some s

/-- Remembers the present position as a key candidate, if a key may begin here. -/
def markCandidate? (s : Scanner) : Option Scanner :=
  if s.keyAllowed then do
    let s ← s.dropCandidate?
    let c := s.cursor
    let required := !s.inFlow && s.indent = (c.column : Int)
    return { s with
      candidates := some ⟨s.tokens.size, required, c.index, c.line, c.column⟩ ::
        s.candidates.tail }
  else some s

/-- Ends the block collections that are indented further than a column. -/
def closeBlocks (column : Int) : (outer : List Int) → Scanner → Scanner
  | [], s => s
  | previous :: outer, s =>
    if column < s.indent then
      closeBlocks column outer { s.emit .blockEnd with indent := previous, outer }
    else s

/-- Ends the block collections that are indented further than a column. Within brackets indentation
does not matter. -/
def unindent (s : Scanner) (column : Int) : Scanner :=
  if s.inFlow then s else closeBlocks column s.outer s

/-- Begins a block collection before the token with a given number, if the column is further than
the indentation. -/
def openBlock (s : Scanner) (column : Nat) (number : Nat) (t : Token) : Scanner :=
  if !s.inFlow && s.indent < column then
    { s with
      tokens := s.tokens.insertIdxIfInBounds number t
      indent := column
      outer := s.indent :: s.outer }
  else s

/-- Sets whether a key may begin next. -/
def allowKey (s : Scanner) (allowed : Bool) : Scanner :=
  { s with keyAllowed := allowed }

/-- Begins a block collection here. -/
def openBlockHere (s : Scanner) (t : Token) : Scanner :=
  s.openBlock s.cursor.column s.tokens.size t

/-- Leaves all block collections, before something that concerns the whole document. -/
def leaveBlocks? (s : Scanner) : Option Scanner := do
  return (← (s.unindent (-1)).dropCandidate?).allowKey false

/-- Reads an opening bracket. -/
def openFlow? (s : Scanner) (t : Token) : Option Scanner := do
  let s ← s.markCandidate?
  return (({ s with candidates := none :: s.candidates }.allowKey true).skip 1).emit t

/-- Reads a closing bracket. -/
def closeFlow? (s : Scanner) (t : Token) : Option Scanner := do
  let s ← s.dropCandidate?
  let candidates := if s.inFlow then s.candidates.tail else s.candidates
  return (({ s with candidates }.allowKey false).skip 1).emit t

/-- Reads a comma. -/
def comma? (s : Scanner) : Option Scanner := do
  return (((← s.dropCandidate?).allowKey true).skip 1).emit .comma

/-- Reads the sign of an entry. -/
def entry? (s : Scanner) : Option Scanner := do
  if !s.inFlow && !s.keyAllowed then none
  let s ← (s.openBlockHere .sequenceStart).dropCandidate?
  return ((s.allowKey true).skip 1).emit .entry

/-- Reads the sign of a key. -/
def key? (s : Scanner) : Option Scanner := do
  if !s.inFlow && !s.keyAllowed then none
  let s ← (s.openBlockHere .mappingStart).dropCandidate?
  return ((s.allowKey !s.inFlow).skip 1).emit .key

/-- Reads the sign of a value. If there is a key candidate, it is the key. -/
def value? (s : Scanner) : Option Scanner := do
  match s.candidates.head? with
  | some (some k) =>
    let s := { s with
      tokens := s.tokens.insertIdxIfInBounds k.token .key
      candidates := none :: s.candidates.tail }
    return (((s.openBlock k.column k.token .mappingStart).allowKey false).skip 1).emit .value
  | _ =>
    if !s.inFlow && !s.keyAllowed then none
    let s := s.openBlockHere .mappingStart
    return ((s.allowKey !s.inFlow).skip 1).emit .value

/-- Reads a token that may be part of a key. -/
def keyPart? (s : Scanner) (read : Cursor → Option (Token × Cursor)) : Option Scanner := do
  let s ← s.markCandidate?
  let (t, cursor) ← read s.cursor
  return { s.emit t with cursor, keyAllowed := false }

/-- The least column for the lines of a scalar. -/
def scalarIndent (s : Scanner) : Nat :=
  (s.indent + 1).toNat

/-- Reads a block scalar. -/
def block? (s : Scanner) (folded : Bool) : Option Scanner := do
  let s ← s.dropCandidate?
  let (text, cursor) ← readBlock? folded s.scalarIndent (s.cursor.skip 1)
  return { s.emit (.scalar text (if folded then .folded else .literal)) with
    cursor, keyAllowed := true }

/-- Reads a quoted scalar. -/
def quoted? (s : Scanner) (single : Bool) : Option Scanner :=
  s.keyPart? fun c => do
    let (text, c) ← readQuoted single (c.rest.length + 1) [] (c.skip 1)
    return (.scalar text .quoted, c)

/-- Reads a plain scalar. If it is followed by a new line, a key may begin there. -/
def plain? (s : Scanner) : Option Scanner := do
  let s ← s.markCandidate?
  let p ← readPlain s.inFlow s.scalarIndent (s.cursor.rest.length + 1) [] {} s.cursor
  return { s.emit (.scalar p.text .plain) with cursor := p.cursor, keyAllowed := p.gap.broken }

/-- Whether a plain scalar may begin with a character, given the one after it. -/
def beginsPlain (flow : Bool) (c : Char) (after : Option Char) : Bool :=
  if isBlank c then false
  else if c = '-' then !after.any isBlank
  else if c = '?' || c = ':' then !flow && !endsWord after
  else !(",[]\x7b\x7d#&*!|>'\"%@".toList.contains c || c.toNat = 0x60)

/-- Reads the token that begins with a character. -/
def token? (s : Scanner) (char : Char) : Option Scanner :=
  let c := s.cursor
  let after := c.ahead 1
  let flow := s.inFlow
  if c.column = 0 && char = '%' then do
    let s ← s.leaveBlocks?
    let (t, cursor) ← readDirective? (s.cursor.skip 1)
    return { s.emit t with cursor }
  else if c.atMarker '-' then do return ((← s.leaveBlocks?).skip 3).emit .documentStart
  else if c.atMarker '.' then do return ((← s.leaveBlocks?).skip 3).emit .documentEnd
  else if char = '[' then s.openFlow? .openSequence
  else if char = '\x7b' then s.openFlow? .openMapping
  else if char = ']' then s.closeFlow? .closeSequence
  else if char = '\x7d' then s.closeFlow? .closeMapping
  else if char = ',' then s.comma?
  else if char = '-' && endsWord after then s.entry?
  else if char = '?' && (flow || endsWord after) then s.key?
  else if char = ':' && (flow || endsWord after) then s.value?
  else if char = '*' then s.keyPart? fun c => (readName? (c.skip 1)).map fun (n, c) => (.alias n, c)
  else if char = '&' then s.keyPart? fun c => (readName? (c.skip 1)).map fun (n, c) =>
    (.anchor n, c)
  else if char = '!' then s.keyPart? (readTag? flow)
  else if char = '|' && !flow then s.block? false
  else if char = '>' && !flow then s.block? true
  else if char = '\'' then s.quoted? true
  else if char = '"' then s.quoted? false
  else if beginsPlain flow char after then s.plain?
  else none

/-- Takes the rest of a text apart. -/
def run? : (fuel : Nat) → Scanner → Option Scanner
  | 0, _ => none
  | fuel + 1, s => do
    let s := skipBlanks (s.cursor.rest.length + 1) s
    let s ← s.dropStale?
    let s := s.unindent s.cursor.column
    match s.cursor.next with
    | none => s.leaveBlocks?
    | some char => run? fuel (← s.token? char)

end Scanner

/-- The tokens of a text. -/
def Token.scan? (text : String) : Option (List Token) := do
  let chars := text.toList
  if !chars.all isAllowed then none
  let s ← Scanner.run? (chars.length + 1) (.start chars)
  return s.tokens.toList

end SymbolicPaths.Yaml
