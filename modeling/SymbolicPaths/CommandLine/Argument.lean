/-!
# Arguments

The words of a command line are read from left to right as flags, settings and operands. A long
option may carry its value behind `=` or take the next word; short flags can share a dash. Words
behind `--` are operands. Reading ends at the first word that cannot be read.
-/

namespace SymbolicPaths.CommandLine

/-- The options that a command takes. -/
structure Vocabulary where
  /-- Long names of options without a value. -/
  flags : List String
  /-- Long names of options with a value. -/
  settings : List String
  /-- The settings whose value may be a negative number. -/
  signed : List String := []
  /-- Short names of flags. -/
  letters : List (Char × String) := []
  /-- How many operands there can be, where there is a limit. -/
  room : Option Nat := some 0

/-- What a word stands for. -/
inductive Argument where
  | flag (name : String)
  | setting (name value : String)
  | operand (text : String)
  /-- A word that cannot be read. -/
  | unknown
  deriving DecidableEq

/-- How a word looks. -/
inductive Shape where
  /-- Two dashes alone. -/
  | divider
  /-- A long option, with the value behind its `=`. -/
  | long (name : String) (value : Option String)
  /-- Short flags behind one dash. -/
  | short (letters : List Char)
  | plain
  deriving DecidableEq

/-- How a word looks. A single dash is plain. -/
def Shape.ofWord (word : String) : Shape :=
  match word.toList with
  | ['-', '-'] => .divider
  | '-' :: '-' :: rest =>
    match rest.span (· ≠ '=') with
    | (name, _ :: value) => .long (String.ofList name) (some (String.ofList value))
    | (name, []) => .long (String.ofList name) none
  | ['-'] => .plain
  | '-' :: letters => .short letters
  | _ => .plain

/-- Whether a word is a dash and digits. -/
def isNegative (word : String) : Bool :=
  match Shape.ofWord word with
  | .short digits => digits.all (·.isDigit)
  | _ => false

namespace Vocabulary

/-- Whether there can be another operand after so many of them. -/
def hasRoom (v : Vocabulary) (count : Nat) : Bool :=
  v.room.all (count < ·)

/-- Whether a word can be the value of a setting in front of it. -/
def acceptsValue (v : Vocabulary) (name word : String) : Bool :=
  Shape.ofWord word = .plain || (v.signed.contains name && isNegative word)

/-- The flags that letters stand for. -/
def readLetters (v : Vocabulary) (letters : List Char) : List Argument :=
  letters.map fun c =>
    match v.letters.lookup c with
    | some name => .flag name
    | none => .unknown

/-- Reads the words of a command line. -/
def read (v : Vocabulary) : List String → List Argument
  | [] => []
  | word :: rest =>
    match Shape.ofWord word with
    | .divider => rest.map .operand
    | .plain => .operand word :: v.read rest
    | .short letters => v.readLetters letters ++ v.read rest
    | .long name (some value) =>
      if v.settings.contains name then .setting name value :: v.read rest else [.unknown]
    | .long name none =>
      if v.flags.contains name then .flag name :: v.read rest
      else match rest with
        | value :: rest =>
          if v.settings.contains name && v.acceptsValue name value then
            .setting name value :: v.read rest
          else [.unknown]
        | [] => [.unknown]

end Vocabulary

end SymbolicPaths.CommandLine
