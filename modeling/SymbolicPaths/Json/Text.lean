import SymbolicPaths.Json.Token

/-!
# JSON strings and numbers

How texts and numbers are written in JSON, and what written strings and numbers stand for. A string
is written with as few escapes as JSON allows.
-/

namespace SymbolicPaths.Json

/-! ### Strings -/

/-- The lower-case hexadecimal digit for a number below sixteen. -/
def hexByte (n : UInt8) : UInt8 :=
  if n < 10 then 0x30 + n else 0x57 + n

/-- How a byte of a text is written: quote, backslash and control characters are escaped. -/
def escapeByte (b : UInt8) : List UInt8 :=
  if b = 0x22 then [0x5c, 0x22]
  else if b = 0x5c then [0x5c, 0x5c]
  else if b = 0x08 then [0x5c, 0x62]
  else if b = 0x0c then [0x5c, 0x66]
  else if b = 0x0a then [0x5c, 0x6e]
  else if b = 0x0d then [0x5c, 0x72]
  else if b = 0x09 then [0x5c, 0x74]
  else if b < 0x20 then [0x5c, 0x75, 0x30, 0x30, hexByte (b / 16), hexByte (b % 16)]
  else [b]

/-- The token for a text. -/
def Token.text (s : String) : Token :=
  .string (s.toUTF8.toList.flatMap escapeByte)

/-- The value of a hexadecimal digit. -/
def hexValue (b : UInt8) : Nat :=
  if b ≤ 0x39 then b.toNat - 0x30 else if b ≤ 0x46 then b.toNat - 0x37 else b.toNat - 0x57

/-- The value of four hexadecimal digits. -/
def hexNumber (a b c d : UInt8) : Nat :=
  ((hexValue a * 16 + hexValue b) * 16 + hexValue c) * 16 + hexValue d

/-- The bytes of the character with a given code. -/
def encodeCode (n : Nat) : List UInt8 :=
  (String.singleton (Char.ofNat n)).toUTF8.toList

/-- The character that stands for itself after a backslash, or is named by the letter there. -/
def namedEscape (b : UInt8) : UInt8 :=
  if b = 0x62 then 0x08
  else if b = 0x66 then 0x0c
  else if b = 0x6e then 0x0a
  else if b = 0x72 then 0x0d
  else if b = 0x74 then 0x09
  else b

/-- The bytes that a written string stands for. A character given by its code is given by two codes
if it needs more than four digits, and then by the right pair. -/
def unescape? : List UInt8 → Option (List UInt8)
  | [] => some []
  | 0x5c :: 0x75 :: a :: b :: c :: d :: rest =>
    let n := hexNumber a b c d
    if n < 0xd800 ∨ 0xe000 ≤ n then (unescape? rest).map (encodeCode n ++ ·)
    else
      match rest with
      | 0x5c :: 0x75 :: e :: f :: g :: h :: rest =>
        let m := hexNumber e f g h
        if n < 0xdc00 ∧ 0xdc00 ≤ m ∧ m < 0xe000 then
          (unescape? rest).map
            (encodeCode (0x10000 + (n - 0xd800) * 0x400 + (m - 0xdc00)) ++ ·)
        else none
      | _ => none
  | 0x5c :: b :: rest => (unescape? rest).map (namedEscape b :: ·)
  | b :: rest => (unescape? rest).map (b :: ·)

/-- Whether a written string that is cut off can still stand for something: no code in it is half of
a pair without the other half. -/
def isTextStart : List UInt8 → Bool
  | [] => true
  | 0x5c :: 0x75 :: a :: b :: c :: d :: rest =>
    let n := hexNumber a b c d
    if n < 0xd800 ∨ 0xe000 ≤ n then isTextStart rest
    else if 0xdc00 ≤ n then false
    else
      match rest with
      | 0x5c :: 0x75 :: e :: f :: g :: h :: rest =>
        let m := hexNumber e f g h
        (0xdc00 ≤ m && m < 0xe000) && isTextStart rest
      | first :: second :: _ => first = 0x5c && second = 0x75
      | [first] => first = 0x5c
      | [] => true
  | 0x5c :: _ :: rest => isTextStart rest
  | _ :: rest => isTextStart rest

/-- The text that a written string stands for. -/
def text? (raw : List UInt8) : Option String := do
  String.fromUTF8? ⟨(← unescape? raw).toArray⟩

/-! ### Numbers -/

/-- The decimal digits of a number. -/
def decimalDigits (n : Nat) : List UInt8 :=
  (Nat.toDigits 10 n).map fun c => c.toNat.toUInt8

/-- The token for a whole number. -/
def Token.int : Int → Token
  | .ofNat n => .number (decimalDigits n)
  | .negSucc n => .number (0x2d :: decimalDigits (n + 1))

/-- The number that decimal digits stand for. -/
def decimalValue (digits : List UInt8) : Nat :=
  digits.foldl (fun n b => n * 10 + (b.toNat - 0x30)) 0

/-- The whole number that a written number stands for. It has no fraction and no exponent, and zero
has no sign. -/
def int? (text : List UInt8) : Option Int :=
  match text with
  | 0x2d :: digits =>
    if digits.all isDigit ∧ decimalValue digits ≠ 0 then some (-(decimalValue digits : Int))
    else none
  | digits => if digits.all isDigit then some (decimalValue digits) else none

/-- Whether a written number has an exponent that leads out of the range of all numbers, whatever
digits may follow. -/
def isOutOfRange (text : List UInt8) : Bool :=
  let isExponentMark (b : UInt8) : Bool := b = 0x45 || b = 0x65
  let significand := text.takeWhile (!isExponentMark ·)
  let exponent := (text.dropWhile (!isExponentMark ·)).drop 1
  significand.any (fun b => 0x31 ≤ b && b ≤ 0x39) && exponent.head? != some 0x2d &&
    Int32.maxValue.toInt < decimalValue (exponent.filter isDigit)

end SymbolicPaths.Json
