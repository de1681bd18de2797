import SymbolicPaths.Object.Image

/-!
# Code in object files

Where the code of a function lies in a file. A section maps a range of addresses to a range of the
file, and `Section.locate` follows that map without ever leaving the section or the file. Function
symbols are put in order by `Symbol.arrange`.
-/

namespace SymbolicPaths

/-- The bytes of a file from `start` up to, not including, `stop`. -/
structure FileRange where
  start : Nat
  stop : Nat
  deriving DecidableEq

/-- A range of addresses whose content is stored at an offset in the file. -/
structure Section where
  address : Address
  size : UInt64
  offset : UInt64
  deriving DecidableEq

/-- The part of the file that holds the code at an address: `size` bytes of it, or all up to the
end of the section, cut at the ends of the section and of the file. There is none if the address
lies outside the section, if the section runs past the address space, or if nothing of it is in the
file. -/
def Section.locate (s : Section) (address : Address) (size : Option UInt64) (fileSize : Nat) :
    Option FileRange :=
  if s.address.toNat + s.size.toNat < UInt64.size ∧ s.address ≤ address ∧
      address.toNat < s.address.toNat + s.size.toNat then
    let inside := address.toNat - s.address.toNat
    let start := s.offset.toNat + inside
    let available := s.size.toNat - inside
    let length := match size with
      | some n => min n.toNat available
      | none => available
    let stop := min (start + length) fileSize
    if start < stop then some ⟨start, stop⟩ else none
  else none

/-- A function symbol. -/
structure Symbol where
  name : String
  address : Address
  /-- The size of the function, where the file tells it. -/
  size : Option UInt64
  /-- Where the code of the function is stored. -/
  range : Option FileRange
  deriving DecidableEq

namespace Symbol

/-- Ends the code of a symbol of unknown size where the next symbol begins. -/
def endBefore (s : Symbol) (next : Address) : Symbol :=
  match s.size, s.range with
  | none, some r =>
    { s with range := some ⟨r.start, min r.stop (r.start + (next.toNat - s.address.toNat))⟩ }
  | _, _ => s

/-- Ends the code of every symbol of unknown size where its successor begins. -/
def separate : List Symbol → List Symbol
  | s :: t :: rest => s.endBefore t.address :: separate (t :: rest)
  | symbols => symbols

/-- The symbols by address. Of several symbols at one address the first counts. -/
def byAddress (symbols : List Symbol) : Std.ExtTreeMap Address Symbol :=
  symbols.foldl (fun m s => m.insertIfNew s.address s) ∅

/-- Symbols in ascending order, one per address, none running into the next. -/
def arrange (symbols : List Symbol) : List Symbol :=
  separate (byAddress symbols).values

/-- The symbol that stands in for an entry point, named after its address: the first section with
code at that address provides it. -/
def ofEntry? (entry : Address) (sections : List Section) (fileSize : Nat) : Option Symbol :=
  (sections.findSome? fun s => s.locate entry none fileSize).map fun range =>
    ⟨"sub_" ++ hexDigits entry.toNat, entry, none, some range⟩

end Symbol

/-- What an object file says about the program in it. -/
structure ObjectFile where
  /-- The architecture, where the file names a known one. -/
  architecture : Option Architecture
  entry : Address
  /-- Names of imported routines, by the address through which they are reached. -/
  routines : Std.ExtTreeMap Address (List String)
  /-- Function symbols, in the order of the file. -/
  symbols : List Symbol
  /-- Where code may be found that has no symbol. -/
  sections : List Section

namespace ObjectFile

/-- A file that is no program of a known kind. -/
def unknown : ObjectFile := ⟨none, 0, ∅, [], []⟩

/-- Collects names by address. The names at one address stay in order. -/
def collectRoutines (routines : List (Address × String)) : Std.ExtTreeMap Address (List String) :=
  routines.foldl (fun m r => m.insert r.1 (m.getD r.1 [] ++ [r.2])) ∅

/-- The functions of the program. Without function symbols, the entry point counts as one. -/
def functions (o : ObjectFile) (fileSize : Nat) : List Symbol :=
  match Symbol.arrange o.symbols with
  | [] => (Symbol.ofEntry? o.entry o.sections fileSize).toList
  | symbols => symbols

end ObjectFile

end SymbolicPaths
