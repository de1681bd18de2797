/-!
# Paths

A path is a text, and slashes divide it into components. Repeated and trailing slashes make no
component, nor does a `.` that something precedes. Two paths with the same components are spellings
of one path; `..` is a component of its own, because what it undoes depends on the files that are
there.
-/

namespace SymbolicPaths

/-- A component of a path. -/
inductive Component where
  /-- The slash in front of an absolute path. -/
  | root
  /-- A `.` in front of a relative path. -/
  | here
  /-- A `..`. -/
  | above
  | name (text : String)
  deriving DecidableEq

/-- A path as it was written. -/
structure Path where
  text : String
  deriving DecidableEq

namespace Path

/-- The pieces between the slashes of a text. There is one more of them than slashes. -/
def pieces : List Char → List (List Char)
  | [] => [[]]
  | '/' :: rest => [] :: pieces rest
  | c :: rest =>
    match pieces rest with
    | [] => [[c]]
    | piece :: more => (c :: piece) :: more

/-- The names that a path leads through, `.` and `..` among them. -/
def steps (p : Path) : List String :=
  ((pieces p.text.toList).filter (!·.isEmpty)).map String.ofList

/-- Whether a path starts at the root. -/
def isAbsolute (p : Path) : Bool :=
  p.text.toList.head? = some '/'

/-- Whether a path ends in a slash, so that only a directory can stand there. -/
def endsInSlash (p : Path) : Bool :=
  p.text.toList.getLast? = some '/'

/-- The component that a step after the first one makes. -/
def component? : String → Option Component
  | "." => none
  | ".." => some .above
  | text => some (.name text)

/-- The components of a path. -/
def components (p : Path) : List Component :=
  if p.isAbsolute then .root :: p.steps.filterMap component?
  else match p.steps with
    | "." :: rest => .here :: rest.filterMap component?
    | steps => steps.filterMap component?

/-- Whether two paths are spellings of one path. -/
def same (p q : Path) : Bool :=
  p.components = q.components

/-- The paths of a list without those that an earlier one is a spelling of. -/
def distinct : List Path → List Path
  | [] => []
  | p :: rest => p :: (distinct rest).filter (!p.same ·)

/-- A path behind another one. An absolute path stays as it is. -/
def join (p q : Path) : Path :=
  if q.isAbsolute then q
  else if p.text.isEmpty || p.endsInSlash then ⟨p.text ++ q.text⟩
  else ⟨p.text ++ "/" ++ q.text⟩

/-- The path with more text at its end. -/
def append (p : Path) (text : String) : Path :=
  ⟨p.text ++ text⟩

/-- What follows the last dot of a name. A name that only starts with a dot has no extension. -/
def extensionOf? (name : List Char) : Option (List Char) :=
  match name.reverse.span (· ≠ '.') with
  | (_, []) | (_, [_]) => none
  | (ending, _) => some ending.reverse

/-- The extension of a path that ends in a name. -/
def extension? (p : Path) : Option String :=
  match p.components.getLast? with
  | some (.name text) => (extensionOf? text.toList).map String.ofList
  | _ => none

end Path

end SymbolicPaths
