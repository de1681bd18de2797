import Std.Data.ExtTreeMap
import SymbolicPaths.Files.Fault
import SymbolicPaths.Path

/-!
# File trees

A tree of files and directories, and what file operations do to it. A location is the list of names
that leads from the root to something; the root itself is always a directory. A path is followed
step by step, so that `..` undoes a name only where that name leads to a directory. There are no
links, hence each thing has one location.
-/

namespace SymbolicPaths

/-- The names that lead from the root to something. -/
abbrev Location := List String

/-- Something in a file tree. -/
inductive FileNode where
  | file (content : List UInt8)
  | directory
  deriving DecidableEq

/-- Files and directories. -/
structure FileTree where
  /-- What there is below the root. -/
  nodes : Std.ExtTreeMap Location FileNode
  /-- Where relative paths start. -/
  current : Location
  deriving DecidableEq

/-- The path of a location. -/
def Location.path (l : Location) : Path :=
  ⟨"/" ++ "/".intercalate l⟩

namespace FileTree

/-- The most bytes a name may have. -/
def nameLimit : Nat := 255

/-- The most bytes a path may have. -/
def pathLimit : Nat := 4095

/-- What stands at a location. -/
def node? (t : FileTree) (l : Location) : Option FileNode :=
  if l = [] then some .directory else t.nodes[l]?

/-- Puts something at a location. -/
def put (t : FileTree) (l : Location) (n : FileNode) : FileTree :=
  { t with nodes := t.nodes.insert l n }

/-- Puts a directory at each step of the way from a location. -/
def putDirectories (t : FileTree) (l : Location) : List String → FileTree
  | [] => t
  | name :: rest => (t.put (l ++ [name]) .directory).putDirectories (l ++ [name]) rest

/-- Puts a file at a location, and directories above it. -/
def putFile (t : FileTree) (l : Location) (content : List UInt8) : FileTree :=
  (t.putDirectories [] l.dropLast).put l (.file content)

/-- What stands below a location, by the names that lead there from it. -/
def below (t : FileTree) (l : Location) : List (Location × FileNode) :=
  t.nodes.toList.filterMap fun (k, n) =>
    if l.isPrefixOf k && l.length < k.length then some (k.drop l.length, n) else none

/-! ### Following paths -/

/-- Refuses a path that cannot be followed, whatever files there are. -/
def demandFollowable (p : Path) : Except FileFault Unit :=
  if p.text.toList.contains '\x00' then .error .zeroInPath
  else if p.text.isEmpty then .error .missing
  else if pathLimit < p.text.utf8ByteSize then .error .tooLong
  else .ok ()

/-- Refuses a location where no directory stands. -/
def demandDirectory (t : FileTree) (l : Location) : Except FileFault Unit :=
  match t.node? l with
  | some .directory => .ok ()
  | some (.file _) => .error .notDirectory
  | none => .error .missing

/-- Refuses a name that is too long. -/
def demandShort (name : String) : Except FileFault Unit :=
  if nameLimit < name.utf8ByteSize then .error .tooLong else .ok ()

/-- Takes a step from a directory. -/
def enter (t : FileTree) (l : Location) (step : String) : Except FileFault Location := do
  t.demandDirectory l
  match step with
  | "." => return l
  | ".." => return l.dropLast
  | name =>
    demandShort name
    return l ++ [name]

/-- Takes steps, one after the other. Something must stand where each of them starts. -/
def walk (t : FileTree) (l : Location) (steps : List String) : Except FileFault Location :=
  steps.foldlM t.enter l

/-- Where a path starts. -/
def start (t : FileTree) (p : Path) : Location :=
  if p.isAbsolute then [] else t.current

/-- The location that a path leads to. -/
def locate (t : FileTree) (p : Path) : Except FileFault Location := do
  demandFollowable p
  t.walk (t.start p) p.steps

/-- The location that a path leads to, and what stands there. -/
def find (t : FileTree) (p : Path) : Except FileFault (Location × FileNode) := do
  let l ← t.locate p
  match t.node? l with
  | some .directory => return (l, .directory)
  | some (.file content) =>
    if p.endsInSlash then throw .notDirectory
    return (l, .file content)
  | none => throw .missing

/-- The location of something that may have to be made there, by the directory it is in. There is
none for a path that ends in `.` or `..` or is the root. -/
def place (t : FileTree) (p : Path) : Except FileFault (Option Location) := do
  demandFollowable p
  let l ← t.walk (t.start p) p.steps.dropLast
  t.demandDirectory l
  match p.steps.getLast? with
  | none | some "." | some ".." => return none
  | some name =>
    demandShort name
    return some (l ++ [name])

/-! ### Operations -/

/-- Makes an empty file at a path, or empties the file that is there. -/
def create (t : FileTree) (p : Path) : Except FileFault FileTree := do
  let some l ← t.place p | throw .isDirectory
  if p.endsInSlash || t.node? l = some .directory then throw .isDirectory
  return t.put l (.file [])

/-- Writes at the end of a file. -/
def append (t : FileTree) (p : Path) (content : List UInt8) : Except FileFault FileTree := do
  match ← t.find p with
  | (l, .file before) => return t.put l (.file (before ++ content))
  | (_, .directory) => throw .isDirectory

/-- Moves a file. A file that stands at the target is replaced. -/
def rename (t : FileTree) (source target : Path) : Except FileFault FileTree := do
  let from? ← t.place source
  let to? ← t.place target
  match from?, to? with
  | some old, some new =>
    match t.node? old with
    | none => throw .missing
    | some .directory => throw .isDirectory
    | some (.file content) =>
      if source.endsInSlash || target.endsInSlash then throw .notDirectory
      if t.node? new = some .directory then throw .isDirectory
      return { t with nodes := (t.nodes.erase old).insert new (.file content) }
  | _, _ => throw .busy

/-- Removes a file. -/
def remove (t : FileTree) (p : Path) : Except FileFault FileTree := do
  let some l ← t.place p | throw .isDirectory
  match t.node? l with
  | none => throw .missing
  | some .directory => throw .isDirectory
  | some (.file _) =>
    if p.endsInSlash then throw .notDirectory
    return { t with nodes := t.nodes.erase l }

end FileTree

end SymbolicPaths
