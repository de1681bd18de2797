import Std.Data.ExtTreeMap
import SymbolicPaths.Json.Text

/-!
# Reading JSON

A `Reader α` takes a value of type `α` off the front of a token sequence. Records are read by
`Reader.record`, which accepts an object in any order of its members as well as an array of the
field values in order. Members that nobody asks for are skipped, and only their syntax is checked.
-/

namespace SymbolicPaths.Json

/-- Why a text could not be read. -/
inductive Fault where
  /-- The text ends too early. -/
  | ended
  /-- The text is no JSON, or not the right kind of value. -/
  | malformed
  deriving DecidableEq

/-- Takes a value off the front of a token sequence. -/
abbrev Reader := StateT (List Token) (Except Fault)

/-- The fault of text that ends within a token where a value is needed: what there is of the token
may be wrong already. -/
def cutFault (read : List UInt8) : Fault :=
  match read with
  | [] => .ended
  | 0x22 :: raw => if isTextStart raw then .ended else .malformed
  | b :: _ =>
    if b = 0x2d || isDigit b then
      if isNumberStart read && !isOutOfRange read then .ended else .malformed
    else .ended

/-- The fault of a token sequence that does not begin with the value needed. A value of the wrong
kind is read before it is refused. -/
def faultAt : List Token → Fault
  | [] => .ended
  | .cut read :: _ => cutFault read
  | _ => .malformed

/-- The fault of a token sequence that does not begin with the bracket, colon or comma needed. One
character is enough to tell. -/
def markFault : List Token → Fault
  | [] => .ended
  | _ => .malformed

/-- The fault of a token sequence that does not begin with the string needed, where nothing but a
string can be. -/
def stringFault : List Token → Fault
  | .cut (0x22 :: raw) :: _ => cutFault (0x22 :: raw)
  | tokens => markFault tokens

namespace Reader

/-- Fails because of what has just been read. -/
def reject {α : Type} : Reader α := fun _ => .error .malformed

/-- Reads a bracket, a colon or a comma. -/
def expect (t : Token) : Reader Unit
  | t' :: rest => if t' = t then .ok ((), rest) else .error .malformed
  | [] => .error .ended

/-- Reads an absent value. -/
def null : Reader Unit
  | .null :: rest => .ok ((), rest)
  | tokens => .error (faultAt tokens)

/-- Reads a truth value. -/
def bool : Reader Bool
  | .bool b :: rest => .ok (b, rest)
  | tokens => .error (faultAt tokens)

/-- Reads a text. -/
def text : Reader String
  | .string raw :: rest =>
    match text? raw with
    | some s => .ok (s, rest)
    | none => .error .malformed
  | tokens => .error (faultAt tokens)

/-- Reads a text where nothing else can be, such as the key of an object. -/
def key : Reader String
  | .string raw :: rest =>
    match text? raw with
    | some s => .ok (s, rest)
    | none => .error .malformed
  | tokens => .error (stringFault tokens)

/-- Reads a whole number. -/
def int : Reader Int
  | .number written :: rest =>
    match int? written with
    | some n => .ok (n, rest)
    | none => .error .malformed
  | tokens => .error (faultAt tokens)

/-- Reads a natural number below a limit. -/
def below (limit : Nat) : Reader Nat := do
  let n ← int
  if 0 ≤ n ∧ n < limit then return n.toNat else reject

/-- Reads a number of 64 bits. -/
def word : Reader UInt64 := return .ofNat (← below UInt64.size)

/-- Reads a number of 32 bits. -/
def halfWord : Reader UInt32 := return .ofNat (← below UInt32.size)

/-- Reads a number of 8 bits. -/
def byte : Reader UInt8 := return .ofNat (← below UInt8.size)

/-- Reads a signed number of 64 bits. -/
def signed : Reader Int64 := do
  let n ← int
  if Int64.minValue.toInt ≤ n ∧ n ≤ Int64.maxValue.toInt then return .ofInt n else reject

/-- Reads a value that may be absent. -/
def optional {α : Type} (value : Reader α) : Reader (Option α)
  | .null :: rest => .ok (none, rest)
  | tokens => (some <$> value) tokens

/-! ### Arrays -/

/-- Reads the members of an array after the first, up to its end. The members read before are given
in reverse. -/
def listRest {α : Type} (value : Reader α) : (fuel : Nat) → List α → Reader (List α)
  | 0, _ => reject
  | fuel + 1, read => fun tokens =>
    match tokens with
    | .comma :: rest =>
      match value rest with
      | .ok (a, rest) => listRest value fuel (a :: read) rest
      | .error e => .error e
    | .closeArray :: rest => .ok (read.reverse, rest)
    | tokens => .error (markFault tokens)

/-- Reads an array. -/
def list {α : Type} (value : Reader α) : Reader (List α) := fun tokens =>
  match tokens with
  | .openArray :: .closeArray :: rest => .ok ([], rest)
  | .openArray :: rest =>
    match value rest with
    | .ok (a, rest) => listRest value (rest.length + 1) [a] rest
    | .error e => .error e
  | tokens => .error (faultAt tokens)

/-! ### Skipping -/

/-- What may come next in a value that is skipped. -/
inductive Next where
  /-- A value. -/
  | value
  /-- The first member of an array, or its end. -/
  | firstMember
  /-- The first key of an object, or its end. -/
  | firstKey
  /-- A key. -/
  | key
  /-- The colon after a key. -/
  | colon
  /-- What follows a value in an array or object. -/
  | separator

/-- The fault of text that ends within a token of a value that is skipped. -/
def skippedFault (read : List UInt8) : Fault :=
  match read with
  | [] => .ended
  | b :: _ => if (b = 0x2d || isDigit b) && !isNumberStart read then .malformed else .ended

/-- Skips tokens up to the end of the outermost value. `inside` tells for the arrays and objects
around the next token, innermost first, which of them are objects. -/
def skipFrom (next : Next) (inside : List Bool) : List Token → Except Fault (List Token)
  | [] => .error .ended
  | t :: rest =>
    match next, t with
    | .firstMember, .closeArray => skipAfter inside.tail rest
    | .firstKey, .closeObject => skipAfter inside.tail rest
    | .firstKey, .string _ => skipFrom .colon inside rest
    | .key, .string _ => skipFrom .colon inside rest
    | .colon, .colon => skipFrom .value inside rest
    | .separator, .comma =>
      skipFrom (if inside.head? = some true then .key else .value) inside rest
    | .separator, .closeArray =>
      if inside.head? = some false then skipAfter inside.tail rest else .error .malformed
    | .separator, .closeObject =>
      if inside.head? = some true then skipAfter inside.tail rest else .error .malformed
    | .firstKey, .cut (0x22 :: _) | .key, .cut (0x22 :: _) => .error .ended
    | .value, t | .firstMember, t =>
      match t with
      | .openArray => skipFrom .firstMember (false :: inside) rest
      | .openObject => skipFrom .firstKey (true :: inside) rest
      | .null | .bool _ | .number _ | .string _ => skipAfter inside rest
      | .cut read => .error (skippedFault read)
      | _ => .error .malformed
    | _, _ => .error .malformed
where
  /-- Goes on after a value: the outermost one ends here. -/
  skipAfter (inside : List Bool) (rest : List Token) : Except Fault (List Token) :=
    if inside.isEmpty then .ok rest else skipFrom .separator inside rest

/-- Skips a value. -/
def skip : Reader Unit := fun tokens => (skipFrom .value [] tokens).map fun rest => ((), rest)

/-! ### Records -/

/-- A field of a record that is read into a draft of type `δ`. -/
structure Member (δ : Type) where
  name : String
  /-- Whether the draft has the field already. -/
  isSet : δ → Bool
  /-- Reads the field into the draft. -/
  read : δ → Reader δ

/-- Reads a member of an object. A field may come once. -/
def member {δ : Type} (fields : List (Member δ)) (draft : δ) : Reader δ := do
  let name ← key
  match fields.find? (·.name = name) with
  | some f =>
    if f.isSet draft then reject
    expect .colon
    f.read draft
  | none =>
    expect .colon
    skip
    return draft

/-- Reads the members of an object after the first, up to its end. -/
def membersRest {δ : Type} (fields : List (Member δ)) : (fuel : Nat) → δ → Reader δ
  | 0, _ => reject
  | fuel + 1, draft => fun tokens =>
    match tokens with
    | .comma :: rest =>
      match member fields draft rest with
      | .ok (draft, rest) => membersRest fields fuel draft rest
      | .error e => .error e
    | .closeObject :: rest => .ok (draft, rest)
    | tokens => .error (markFault tokens)

/-- Reads fields in order from what is left of an array. The last ones may be missing. -/
def fieldsRest {δ : Type} : List (Member δ) → δ → Reader δ
  | [], draft => do
    expect .closeArray
    return draft
  | f :: fields, draft => fun tokens =>
    match tokens with
    | .comma :: rest =>
      match f.read draft rest with
      | .ok (draft, rest) => fieldsRest fields draft rest
      | .error e => .error e
    | .closeArray :: rest => .ok (draft, rest)
    | tokens => .error (markFault tokens)

/-- Reads a draft of a record, from an object or from an array. -/
def draft {δ : Type} (fields : List (Member δ)) (blank : δ) : Reader δ := fun tokens =>
  match tokens with
  | .openObject :: .closeObject :: rest => .ok (blank, rest)
  | .openObject :: rest =>
    match member fields blank rest with
    | .ok (draft, rest) => membersRest fields (rest.length + 1) draft rest
    | .error e => .error e
  | .openArray :: .closeArray :: rest => .ok (blank, rest)
  | .openArray :: rest =>
    match fields with
    | [] => .error (faultAt rest)
    | f :: fields =>
      match f.read blank rest with
      | .ok (draft, rest) => fieldsRest fields draft rest
      | .error e => .error e
  | tokens => .error (faultAt tokens)

/-- Reads a record. The draft has to have all that the record needs. -/
def record {δ α : Type} (fields : List (Member δ)) (blank : δ) (complete : δ → Option α) :
    Reader α := do
  match complete (← draft fields blank) with
  | some a => return a
  | none => reject

/-! ### Maps -/

/-- Reads the entries of an object after the first, up to its end. -/
def entriesRest {κ α : Type} (key : Reader κ) (value : Reader α) :
    (fuel : Nat) → List (κ × α) → Reader (List (κ × α))
  | 0, _ => reject
  | fuel + 1, read => fun tokens =>
    match tokens with
    | .comma :: rest =>
      match entry rest with
      | .ok (e, rest) => entriesRest key value fuel (e :: read) rest
      | .error e => .error e
    | .closeObject :: rest => .ok (read.reverse, rest)
    | tokens => .error (markFault tokens)
where
  /-- Reads an entry. -/
  entry : Reader (κ × α) := do
    let k ← key
    expect .colon
    return (k, ← value)

/-- Reads the entries of an object, in order. -/
def entries {κ α : Type} (key : Reader κ) (value : Reader α) :
    Reader (List (κ × α)) := fun tokens =>
  match tokens with
  | .openObject :: .closeObject :: rest => .ok ([], rest)
  | .openObject :: rest =>
    match entriesRest.entry key value rest with
    | .ok (e, rest) => entriesRest key value (rest.length + 1) [e] rest
    | .error e => .error e
  | tokens => .error (faultAt tokens)

/-- Reads an object as a map. Of several entries with one key the last counts. -/
def map {κ α : Type} [Ord κ] [Std.TransOrd κ] (key : Reader κ) (value : Reader α) :
    Reader (Std.ExtTreeMap κ α) := do
  let read ← entries key value
  return read.foldl (fun m e => m.insert e.1 e.2) ∅

/-- Reads a key that is a number of 64 bits: it is written as a number, without escapes. -/
def wordKey : Reader UInt64
  | .string raw :: rest =>
    match if isNumber raw then int? raw else none with
    | some n => if 0 ≤ n ∧ n < UInt64.size then .ok (.ofNat n.toNat, rest) else .error .malformed
    | none => .error .malformed
  | .cut (0x22 :: raw) :: _ =>
    .error (if raw.isEmpty || isNumberStart raw && !isOutOfRange raw then .ended else .malformed)
  | tokens => .error (markFault tokens)

/-! ### Whole texts -/

/-- Reads a text that holds one value and nothing else. -/
def readText {α : Type} (value : Reader α) (bytes : List UInt8) : Except Fault α :=
  match value (lex bytes) with
  | .ok (a, []) => .ok a
  | .ok (_, _ :: _) => .error .malformed
  | .error e => .error e

end Reader

end SymbolicPaths.Json
