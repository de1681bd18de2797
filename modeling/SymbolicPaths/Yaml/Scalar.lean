import SymbolicPaths.Yaml.Cursor

/-!
# YAML scalars

The three ways to write a text: plain, in quotes, and as a block of lines. Where a text goes over
several lines, a single line break stands for a blank, and further ones for themselves.

Texts that are being read are kept in reverse.
-/

namespace SymbolicPaths.Yaml

/-- What line breaks in a row stand for, of which `first` is the first and `more` are the rest. -/
def foldBreaks (first : Option Char) (more : List Char) : List Char :=
  if first = some '\n' then if more.isEmpty then [' '] else more
  else first.toList ++ more

/-- The blanks and line breaks between two words. -/
structure Gap where
  /-- Blanks, as long as there is no line break. -/
  blanks : List Char := []
  /-- Whether there is a line break. -/
  broken : Bool := false
  first : Option Char := none
  more : List Char := []

/-- What a gap stands for. -/
def Gap.text (g : Gap) : List Char :=
  if g.broken then foldBreaks g.first g.more else g.blanks

/-- Reads blanks and line breaks. A tab must not stand where the indentation of a line is less than
`indent`. -/
def readGap (indent : Nat) : (fuel : Nat) → Gap → Cursor → Option (Gap × Cursor)
  | 0, _, _ => none
  | fuel + 1, g, c =>
    match c.next with
    | none => some (g, c)
    | some char =>
      if isBlank char then
        if g.broken then
          if char = '\t' && c.column < indent then none else readGap indent fuel g (c.skip 1)
        else readGap indent fuel { g with blanks := g.blanks ++ [char] } (c.skip 1)
      else if isBreak char then
        let g := if g.broken then { g with more := g.more ++ c.lineBreak.toList }
          else { g with blanks := [], broken := true, first := c.lineBreak }
        readGap indent fuel g c.skipBreak
      else some (g, c)

/-! ### Plain scalars -/

/-- Characters that end a plain word within brackets. -/
def isFlowIndicator (c : Char) : Bool :=
  [',', '[', ']', '\x7b', '\x7d'].contains c

/-- The plain word at the start of a text. A colon ends it only before a blank, and within brackets
it must not stand before a bracket or the like. -/
def plainWord (flow : Bool) : List Char → Option (List Char)
  | [] => some []
  | c :: rest =>
    if isBlank c || isBreak c then some []
    else if flow && c = ':' && rest.head?.any (fun d => isFlowIndicator d || d = '?') then none
    else if c = ':' && endsWord rest.head? || flow && isFlowIndicator c then some []
    else (plainWord flow rest).map (c :: ·)

/-- A plain scalar, with the gap after it. -/
structure PlainScalar where
  text : String
  gap : Gap
  cursor : Cursor

/-- Reads the words of a plain scalar. Outside of brackets, all lines have to be indented by
`indent`. -/
def readPlain (flow : Bool) (indent : Nat) :
    (fuel : Nat) → List Char → Gap → Cursor → Option PlainScalar
  | 0, _, _, _ => none
  | fuel + 1, text, g, c =>
    let stop (text : List Char) (g : Gap) (c : Cursor) : Option PlainScalar :=
      some ⟨String.ofList text.reverse, g, c⟩
    if c.atDocumentMarker || c.sees '#' then stop text g c
    else do
      let word ← plainWord flow c.rest
      let (text, g) :=
        if word.isEmpty then (text, g) else (word.reverse ++ (g.text.reverse ++ text), {})
      let c := c.skip word.length
      if c.next.any (fun x => isBlank x || isBreak x) then
        let (g, c) ← readGap indent (c.rest.length + 1) g c
        if !flow && c.column < indent then stop text g c
        else readPlain flow indent fuel text g c
      else stop text g c

/-! ### Quoted scalars -/

/-- The character that a letter after a backslash stands for. -/
def namedEscape? : Char → Option Char
  | '0' => some (Char.ofNat 0)
  | 'a' => some (Char.ofNat 7)
  | 'b' => some (Char.ofNat 8)
  | 't' | '\t' => some '\t'
  | 'n' => some '\n'
  | 'v' => some (Char.ofNat 11)
  | 'f' => some (Char.ofNat 12)
  | 'r' => some '\r'
  | 'e' => some (Char.ofNat 27)
  | ' ' => some ' '
  | '"' => some '"'
  | '/' => some '/'
  | '\\' => some '\\'
  | 'N' => some (Char.ofNat 0x85)
  | '_' => some (Char.ofNat 0xa0)
  | 'L' => some (Char.ofNat 0x2028)
  | 'P' => some (Char.ofNat 0x2029)
  | _ => none

/-- How many hexadecimal digits follow a letter after a backslash. -/
def escapeDigits? : Char → Option Nat
  | 'x' => some 2
  | 'u' => some 4
  | 'U' => some 8
  | _ => none

/-- The value of a hexadecimal digit. -/
def hexValue? (c : Char) : Option Nat :=
  if '0' ≤ c && c ≤ '9' then some (c.toNat - '0'.toNat)
  else if 'a' ≤ c && c ≤ 'f' then some (c.toNat - 'a'.toNat + 10)
  else if 'A' ≤ c && c ≤ 'F' then some (c.toNat - 'A'.toNat + 10)
  else none

/-- The character that `count` hexadecimal digits stand for. -/
def hexChar? (count : Nat) (text : List Char) : Option Char := do
  let digits ← (text.take count).mapM hexValue?
  if digits.length < count then none
  let n := digits.foldl (fun n d => 16 * n + d) 0
  if n.isValidChar then return Char.ofNat n else none

/-- Reads the rest of a word in quotes. A backslash before the end of a line joins it to the next
one, which the last part of the result tells. -/
def quotedWord (single : Bool) :
    (fuel : Nat) → List Char → Cursor → Option (List Char × Cursor × Bool)
  | 0, _, _ => none
  | fuel + 1, text, c =>
    match c.rest with
    | [] => some (text, c, false)
    | char :: rest =>
      if isBlank char || isBreak char then some (text, c, false)
      else if single then
        if char = '\'' then
          if rest.head? = some '\'' then quotedWord single fuel ('\'' :: text) (c.skip 2)
          else some (text, c, false)
        else quotedWord single fuel (char :: text) (c.skip 1)
      else if char = '"' then some (text, c, false)
      else if char = '\\' then
        match rest with
        | [] => none
        | letter :: rest =>
          if isBreak letter then some (text, (c.skip 1).skipBreak, true)
          else
            match namedEscape? letter, escapeDigits? letter with
            | some char, _ => quotedWord single fuel (char :: text) (c.skip 2)
            | none, some count => do
              let char ← hexChar? count rest
              quotedWord single fuel (char :: text) (c.skip (2 + count))
            | none, none => none
      else quotedWord single fuel (char :: text) (c.skip 1)

/-- Reads a quoted scalar up to its closing quote. -/
def readQuoted (single : Bool) : (fuel : Nat) → List Char → Cursor → Option (String × Cursor)
  | 0, _, _ => none
  | fuel + 1, text, c =>
    if c.atDocumentMarker || c.rest.isEmpty then none
    else do
      let (text, c, joined) ← quotedWord single (c.rest.length + 1) text c
      if c.sees (if single then '\'' else '"') then
        return (String.ofList text.reverse, c.skip 1)
      let (g, c) ← readGap 0 (c.rest.length + 1) { broken := joined } c
      readQuoted single fuel (g.text.reverse ++ text) c

/-! ### Block scalars -/

/-- Which line breaks at the end of a block are kept. -/
inductive Chomping where
  /-- None. -/
  | strip
  /-- The first. -/
  | clip
  /-- All. -/
  | keep
  deriving DecidableEq

/-- The header of a block: whether its lines are folded, what happens to its end, and how far its
lines are indented, if that is told. -/
structure BlockHeader where
  folded : Bool
  chomping : Chomping
  increment : Option Nat

/-- Reads a sign that tells what happens to the end of a block. -/
def readChomping (c : Cursor) : Option Chomping × Cursor :=
  if c.sees '+' then (some .keep, c.skip 1)
  else if c.sees '-' then (some .strip, c.skip 1)
  else (none, c)

/-- Reads a digit that tells the indentation of a block. It must not be zero. -/
def readIncrement? (c : Cursor) : Option (Option Nat × Cursor) :=
  match c.next with
  | some d =>
    if d = '0' then none
    else if d.isDigit then some (some (d.toNat - '0'.toNat), c.skip 1)
    else some (none, c)
  | none => some (none, c)

/-- Reads the header of a block after its first character, with the rest of the line. The two signs
come in either order. -/
def readBlockHeader? (folded : Bool) (c : Cursor) : Option (BlockHeader × Cursor) := do
  let (before, c) := readChomping c
  let (increment, c) ← readIncrement? c
  let (after, c) := if before.isNone && increment.isSome then readChomping c else (none, c)
  let c ← c.finishLine?
  return (⟨folded, (before <|> after).getD .clip, increment⟩, c)

/-- Reads indentation and empty lines before the next line of a block: the line breaks, and the
widest indentation seen. Without a known indentation all blanks count as such. -/
def blockBreaks (indent : Option Nat) :
    (fuel : Nat) → Nat → List Char → Cursor → Option (List Char × Nat × Cursor)
  | 0, _, _, _ => none
  | fuel + 1, widest, breaks, c =>
    let blanks := (c.takeWhile (· = ' ')).length
    let c := match indent with
      | some n => c.skip (min blanks (n - c.column))
      | none => c.skip blanks
    let widest := max widest c.column
    if c.sees '\t' && indent.all (c.column < ·) then none
    else
      match c.lineBreak with
      | some b => blockBreaks indent fuel widest (breaks ++ [b]) c.skipBreak
      | none => some (breaks, widest, c)

/-- A block that is being read: its text, and the line breaks after it. -/
structure BlockText where
  text : List Char := []
  first : Option Char := none
  more : List Char := []
  /-- Whether the last line begins with a blank. -/
  blank : Bool := false

/-- Reads the lines of a block. Breaks between folded lines stand for a blank, unless one of the
lines begins with a blank itself. -/
def blockLines (folded : Bool) (indent : Nat) :
    (fuel : Nat) → BlockText → Cursor → Option (BlockText × Cursor)
  | 0, _, _ => none
  | fuel + 1, b, c =>
    if c.column = indent && !c.rest.isEmpty then do
      let blank := c.next.any isBlank
      let joint :=
        if folded && b.first = some '\n' && !b.blank && !blank then foldBreaks b.first b.more
        else b.first.toList ++ b.more
      let line := c.takeWhile (fun x => !isBreak x)
      let c := c.skip line.length
      let first := c.lineBreak
      let (more, _, c) ← blockBreaks (some indent) (c.rest.length + 1) 0 [] c.skipBreak
      blockLines folded indent fuel
        ⟨line.reverse ++ (joint.reverse ++ b.text), first, more, blank⟩ c
    else some (b, c)

/-- Reads a block scalar after its first character. Its lines are indented further than what is
around it, which is indented by `indent - 1`. -/
def readBlock? (folded : Bool) (indent : Nat) (c : Cursor) : Option (String × Cursor) := do
  let (h, c) ← readBlockHeader? folded c
  let given := h.increment.map fun n => max indent 1 - 1 + n
  let (more, widest, c) ← blockBreaks given (c.rest.length + 1) 0 [] c
  let indent := given.getD (max widest (max indent 1))
  let (b, c) ← blockLines folded indent (c.rest.length + 1) { more } c
  let ending := match h.chomping with
    | .strip => []
    | .clip => b.first.toList
    | .keep => b.first.toList ++ b.more
  return (String.ofList (b.text.reverse ++ ending), c)

end SymbolicPaths.Yaml
