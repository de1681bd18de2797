/-!
# JSON tokens

JSON text is handled as a sequence of tokens. `Token.bytes` is the text of a token and `lex` takes a
text apart. Blanks between tokens are not kept, so every layout of a document has the same tokens.

Strings and numbers are kept as they are written: a string token holds what stands between the
quotes, of which only the escapes have been checked. What a string stands for is the business of
whoever needs it, because strings in parts of a document that nobody reads need not stand for
anything.
-/

namespace SymbolicPaths.Json

/-- A token of a JSON text. -/
inductive Token where
  | openObject
  | closeObject
  | openArray
  | closeArray
  | colon
  | comma
  | null
  | bool (value : Bool)
  /-- A number, as written. -/
  | number (text : List UInt8)
  /-- A string, as written between its quotes. -/
  | string (raw : List UInt8)
  /-- What there is of a token that the end of the text cuts off. -/
  | cut (read : List UInt8)
  /-- Text that is no token, up to the end. -/
  | invalid
  deriving DecidableEq

/-- The text of a token. -/
def Token.bytes : Token → List UInt8
  | .openObject => [0x7b]
  | .closeObject => [0x7d]
  | .openArray => [0x5b]
  | .closeArray => [0x5d]
  | .colon => [0x3a]
  | .comma => [0x2c]
  | .null => [0x6e, 0x75, 0x6c, 0x6c]
  | .bool true => [0x74, 0x72, 0x75, 0x65]
  | .bool false => [0x66, 0x61, 0x6c, 0x73, 0x65]
  | .number text => text
  | .string raw => 0x22 :: (raw ++ [0x22])
  | .cut read => read
  | .invalid => []

/-! ### Character classes -/

/-- Blanks between tokens. -/
def isBlank (b : UInt8) : Bool :=
  b = 0x20 || b = 0x09 || b = 0x0a || b = 0x0d

/-- Decimal digits. -/
def isDigit (b : UInt8) : Bool :=
  0x30 ≤ b && b ≤ 0x39

/-- Hexadecimal digits, of either case. -/
def isHexDigit (b : UInt8) : Bool :=
  isDigit b || 0x41 ≤ b && b ≤ 0x46 || 0x61 ≤ b && b ≤ 0x66

/-- Characters that a number may go on with. -/
def isNumberByte (b : UInt8) : Bool :=
  isDigit b || b = 0x2b || b = 0x2d || b = 0x2e || b = 0x45 || b = 0x65

/-- Characters that may follow a backslash, other than `u`. -/
def isEscapable (b : UInt8) : Bool :=
  [0x22, 0x5c, 0x2f, 0x62, 0x66, 0x6e, 0x72, 0x74].contains b

/-! ### Numbers -/

/-- What follows a non-empty sequence of digits, if there is one. -/
def afterDigits? : List UInt8 → Option (List UInt8)
  | b :: rest => if isDigit b then some (rest.dropWhile isDigit) else none
  | [] => none

/-- What follows the whole part of a number: a single zero, or digits that do not begin with one. -/
def afterWhole? : List UInt8 → Option (List UInt8)
  | 0x30 :: rest => some rest
  | text => afterDigits? text

/-- What follows the fraction of a number, which may be missing. -/
def afterFraction? : List UInt8 → Option (List UInt8)
  | 0x2e :: rest => afterDigits? rest
  | text => some text

/-- What follows the exponent of a number, which may be missing. -/
def afterExponent? : List UInt8 → Option (List UInt8)
  | b :: rest =>
    if b = 0x45 || b = 0x65 then
      match rest with
      | 0x2b :: digits => afterDigits? digits
      | 0x2d :: digits => afterDigits? digits
      | digits => afterDigits? digits
    else some (b :: rest)
  | [] => some []

/-- Whether a text is a number. -/
def isNumber (text : List UInt8) : Bool :=
  let unsigned := match text with
    | 0x2d :: rest => rest
    | _ => text
  (do afterExponent? (← afterFraction? (← afterWhole? unsigned))) = some []

/-- Whether a text is the beginning of a number, be it one that could end there or not. -/
def isNumberStart (text : List UInt8) : Bool :=
  isNumber text || isNumber (text ++ [0x30])

/-! ### Taking text apart -/

/-- Where in a text the lexer is. What has been read of a number or string is kept in reverse. -/
inductive Place where
  /-- Between two tokens. -/
  | between
  /-- In a word, of which `rest` is still to come. -/
  | word (rest : List UInt8) (token : Token)
  /-- In a number. -/
  | number (read : List UInt8)
  /-- In a string. -/
  | string (read : List UInt8)
  /-- In a string, after a backslash. -/
  | escape (read : List UInt8)
  /-- In an escape of four hexadecimal digits, of which `left` are still to come. Whether all the
  others are digits only counts when the last one is there. -/
  | hex (left : Nat) (sound : Bool) (read : List UInt8)
  /-- After something that is no token. -/
  | lost
  deriving DecidableEq

/-- What has been read of a token that is not complete. -/
def Place.unfinished? : Place → Option (List UInt8)
  | .between | .lost => none
  | .word rest token => some (token.bytes.take (token.bytes.length - rest.length))
  | .number read => some read.reverse
  | .string read | .escape read | .hex _ _ read => some (0x22 :: read.reverse)

/-- A text taken apart so far: the tokens in reverse, and where in the text that is. -/
structure Lexer where
  tokens : List Token
  place : Place
  deriving DecidableEq

namespace Lexer

/-- The start of a text. -/
def start : Lexer := ⟨[], .between⟩

/-- Adds a token. -/
def emit (l : Lexer) (t : Token) : Lexer :=
  ⟨t :: l.tokens, .between⟩

/-- Gives up on the rest of the text. -/
def giveUp (l : Lexer) : Lexer :=
  ⟨.invalid :: l.tokens, .lost⟩

/-- Reads a character between two tokens. -/
def begin (l : Lexer) (b : UInt8) : Lexer :=
  if isBlank b then { l with place := .between }
  else if b = 0x7b then l.emit .openObject
  else if b = 0x7d then l.emit .closeObject
  else if b = 0x5b then l.emit .openArray
  else if b = 0x5d then l.emit .closeArray
  else if b = 0x3a then l.emit .colon
  else if b = 0x2c then l.emit .comma
  else if b = 0x22 then { l with place := .string [] }
  else if b = 0x6e then { l with place := .word [0x75, 0x6c, 0x6c] .null }
  else if b = 0x74 then { l with place := .word [0x72, 0x75, 0x65] (.bool true) }
  else if b = 0x66 then { l with place := .word [0x61, 0x6c, 0x73, 0x65] (.bool false) }
  else if b = 0x2d || isDigit b then { l with place := .number [b] }
  else l.giveUp

/-- Reads a character. -/
def step (l : Lexer) (b : UInt8) : Lexer :=
  match l.place with
  | .between => l.begin b
  | .word rest token =>
    if rest = [b] then l.emit token
    else if rest.head? = some b then { l with place := .word rest.tail token }
    else l.giveUp
  | .number read =>
    if isNumberByte b then { l with place := .number (b :: read) }
    else if isNumber read.reverse then (l.emit (.number read.reverse)).begin b
    else l.giveUp
  | .string read =>
    if b = 0x22 then l.emit (.string read.reverse)
    else if b = 0x5c then { l with place := .escape (b :: read) }
    else if b < 0x20 then l.giveUp
    else { l with place := .string (b :: read) }
  | .escape read =>
    if b = 0x75 then { l with place := .hex 4 true (b :: read) }
    else if isEscapable b then { l with place := .string (b :: read) }
    else l.giveUp
  | .hex left sound read =>
    let sound := sound && isHexDigit b
    if 1 < left then { l with place := .hex (left - 1) sound (b :: read) }
    else if sound then { l with place := .string (b :: read) }
    else l.giveUp
  | .lost => l

/-- The tokens read, in order, the last of them cut off if the text ends within one. A number is
only known to be complete when something follows it. -/
def finish (l : Lexer) : List Token :=
  l.tokens.reverse ++ (l.place.unfinished?.map Token.cut).toList

end Lexer

/-- The tokens of a text. -/
def lex (text : List UInt8) : List Token :=
  (text.foldl Lexer.step .start).finish

end SymbolicPaths.Json
