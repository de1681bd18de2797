import SymbolicPaths.Files.Tree
import SymbolicPaths.Journal

/-!
# Scripts

A `Script` is a program that asks for one file operation at a time and goes on with the answer. It
does nothing by itself: `run` answers its requests from a file tree, and since a script stands still
between two requests, several of them can take turns on one tree, or a request can be made to fail.
What a script reports on the way is part of it.
-/

namespace SymbolicPaths

/-- What can stand at a path. -/
inductive FileKind where
  | file
  | directory
  deriving DecidableEq

/-- The outcome of reading a file. A directory can be opened, but not read. -/
inductive Reading where
  | content (bytes : List UInt8)
  | unopened (fault : FileFault)
  | broken (fault : FileFault)
  deriving DecidableEq

/-- An operation that may change files. -/
inductive FileChange where
  /-- Makes an empty file, or empties the one that is there. -/
  | create (path : Path)
  /-- Writes at the end of a file. -/
  | append (path : Path) (content : List UInt8)
  /-- Hands on what has been written to a file. -/
  | flush (path : Path)
  /-- Waits until what has been written to a file is stored for good. -/
  | sync (path : Path)
  /-- Moves a file in one go. -/
  | rename (source target : Path)
  | remove (path : Path)
  deriving DecidableEq

/-- What a script can ask for. -/
inductive FileRequest where
  /-- What stands at a path? -/
  | status (path : Path)
  /-- The absolute path, without `.` and `..`, of what stands at a path. -/
  | resolve (path : Path)
  /-- Where do relative paths start? -/
  | current
  /-- What is in a file? -/
  | read (path : Path)
  | change (operation : FileChange)
  deriving DecidableEq

/-- The type of the answers to a request. -/
abbrev FileRequest.Answer : FileRequest → Type
  | .status _ => Except FileFault FileKind
  | .resolve _ => Except FileFault Path
  | .current => Path
  | .read _ => Reading
  | .change _ => Except FileFault Unit

/-- The kind of a node. -/
def FileNode.kind : FileNode → FileKind
  | .file _ => .file
  | .directory => .directory

namespace FileTree

/-- The tree after an operation. -/
def apply (t : FileTree) : FileChange → Except FileFault FileTree
  | .create p => t.create p
  | .append p content => t.append p content
  | .flush p | .sync p => (t.find p).map fun _ => t
  | .rename source target => t.rename source target
  | .remove p => t.remove p

/-- Reads the file at a path. -/
def read (t : FileTree) (p : Path) : Reading :=
  match t.find p with
  | .ok (_, .file content) => .content content
  | .ok (_, .directory) => .broken .isDirectory
  | .error fault => .unopened fault

/-- The answer of a tree to a request, and the tree afterwards. An operation that fails leaves the
tree as it is. -/
def answer (t : FileTree) : (r : FileRequest) → r.Answer × FileTree
  | .status p => ((t.find p).map (·.2.kind), t)
  | .resolve p => ((t.find p).map fun found => Location.path found.1, t)
  | .current => (Location.path t.current, t)
  | .read p => (t.read p, t)
  | .change c =>
    match t.apply c with
    | .ok t' => (.ok (), t')
    | .error fault => (.error fault, t)

end FileTree

/-- A program that asks for file operations. -/
inductive Script (α : Type) where
  | done (value : α)
  /-- Reports an event and goes on. -/
  | note (event : Event) (next : Script α)
  /-- Asks for an operation and goes on with the answer. -/
  | ask (request : FileRequest) (next : request.Answer → Script α)

namespace Script

variable {α β γ : Type}

/-- Goes on with the value of a script. -/
protected def bind (f : α → Script β) : Script α → Script β
  | .done a => f a
  | .note e s => .note e (s.bind f)
  | .ask r k => .ask r fun a => (k a).bind f

instance : Monad Script where
  pure := .done
  bind s f := s.bind f

@[simp] theorem pure_eq (a : α) : (pure a : Script α) = .done a := rfl

@[simp] theorem done_bind (a : α) (f : α → Script β) : (Script.done a) >>= f = f a := rfl

@[simp] theorem note_bind (e : Event) (s : Script α) (f : α → Script β) :
    (Script.note e s) >>= f = .note e (s >>= f) := rfl

@[simp] theorem ask_bind (r : FileRequest) (k : r.Answer → Script α) (f : α → Script β) :
    (Script.ask r k) >>= f = .ask r fun a => k a >>= f := rfl

theorem bind_done (s : Script α) : s >>= Script.done = s := by
  induction s with
  | done a => rfl
  | note e s ih => rw [note_bind, ih]
  | ask r k ih => simp [ih]

theorem bind_assoc (s : Script α) (f : α → Script β) (g : β → Script γ) :
    s >>= f >>= g = s >>= fun a => f a >>= g := by
  induction s with
  | done a => rfl
  | note e s ih => simp [ih]
  | ask r k ih => simp [ih]

instance : LawfulMonad Script :=
  LawfulMonad.mk' Script bind_done (fun _ _ => rfl) bind_assoc

/-- Asks for an operation. -/
def request (r : FileRequest) : Script r.Answer :=
  .ask r .done

/-- Asks what stands at a path. -/
def status (p : Path) : Script (Except FileFault FileKind) :=
  request (.status p)

/-- Asks for the content of a file. -/
def read (p : Path) : Script Reading :=
  request (.read p)

/-- Asks for an operation that may change files. -/
def change (c : FileChange) : Script (Except FileFault Unit) :=
  request (.change c)

/-- Reports an event. -/
def report (e : Event) : Script Unit :=
  .note e (.done ())

/-- Logs a message. -/
def log (level : Level) (message : String) : Script Unit :=
  report (.logged ⟨level, message⟩)

/-- Writes a line to the output. -/
def print (line : String) : Script Unit :=
  report (.printed line)

/-- A script that asks for nothing. -/
def ofJournaled (x : Journaled α) : Script α :=
  x.events.foldr .note (.done x.value)

instance : MonadLift Journaled Script where
  monadLift := ofJournaled

/-- The value of a script on a file tree, and the tree afterwards. -/
def run : Script α → FileTree → Journaled (α × FileTree)
  | .done a, t => pure (a, t)
  | .note e s, t => do
    Journaled.note e
    s.run t
  | .ask r k, t => (k (t.answer r).1).run (t.answer r).2

@[simp] theorem run_done (a : α) (t : FileTree) : (Script.done a).run t = pure (a, t) := rfl

@[simp] theorem run_note (e : Event) (s : Script α) (t : FileTree) :
    (Script.note e s).run t = (do Journaled.note e; s.run t) := rfl

@[simp] theorem run_ask (r : FileRequest) (k : r.Answer → Script α) (t : FileTree) :
    (Script.ask r k).run t = (k (t.answer r).1).run (t.answer r).2 := rfl

@[simp] theorem run_bind (s : Script α) (f : α → Script β) (t : FileTree) :
    (s >>= f).run t = (do let r ← s.run t; (f r.1).run r.2) := by
  induction s generalizing t with
  | done a => simp
  | note e s ih => simp [ih]
  | ask r k ih => simp [ih]

@[simp] theorem run_request (r : FileRequest) (t : FileTree) :
    (request r).run t = pure (t.answer r) := rfl

end Script

end SymbolicPaths
