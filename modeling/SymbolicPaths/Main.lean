import SymbolicPaths.CommandLine.Run
import SymbolicPaths.Gzip.Stored

/-!
# The program

Runs a command on the files of the machine. All decisions are made by the script of the command;
here its requests are answered, its lines printed, and its log records shown.
-/

namespace SymbolicPaths.Program

open CommandLine

/-- The number and the text of a system error. -/
def systemError? : IO.Error → Option (UInt32 × String)
  | .otherError code text | .resourceBusy code text | .resourceVanished code text
  | .unsupportedOperation code text | .hardwareFault code text
  | .unsatisfiedConstraints code text | .illegalOperation code text | .protocolError code text
  | .timeExpired code text | .interrupted _ code text | .noFileOrDirectory _ code text
  | .alreadyExists _ code text | .invalidArgument _ code text | .permissionDenied _ code text
  | .resourceExhausted _ code text | .inappropriateType _ code text
  | .noSuchThing _ code text => some (code, text)
  | .unexpectedEof | .userError _ => none

/-- Why a file operation failed. -/
def faultOf (e : IO.Error) : FileFault :=
  match systemError? e with
  | some (2, _) => .missing
  | some (16, _) => .busy
  | some (20, _) => .notDirectory
  | some (21, _) => .isDirectory
  | some (36, _) => .tooLong
  | some (code, text) => .other s!"{text} (os error {code})"
  | none => .other (toString e)

/-- The outcome of an operation on the files of the machine. -/
def attempt {α : Type} (x : IO α) : IO (Except FileFault α) := do
  match ← x.toBaseIO with
  | .ok a => return .ok a
  | .error e => return .error (faultOf e)

/-- Carries out an operation that may change files. -/
def carryOut : FileChange → IO Unit
  | .create p => discard (IO.FS.Handle.mk p.text .write)
  | .append p content => do
    let handle ← IO.FS.Handle.mk p.text .append
    handle.write ⟨content.toArray⟩
    handle.flush
  | .flush p | .sync p => do
    let handle ← IO.FS.Handle.mk p.text .append
    handle.flush
  | .rename source target => IO.FS.rename source.text target.text
  | .remove p => IO.FS.removeFile p.text

/-- Reads a file. -/
def readFile (p : Path) : IO Reading := do
  match ← attempt (IO.FS.Handle.mk p.text .read) with
  | .error fault => return .unopened fault
  | .ok handle =>
    match ← attempt handle.readBinToEnd with
    | .error fault => return .broken fault
    | .ok bytes => return .content bytes.data.toList

/-- Answers a request. -/
def answer : (r : FileRequest) → IO r.Answer
  | .status p => attempt do
    let found ← IO.FS.realPath p.text
    return if ← found.isDir then .directory else .file
  | .resolve p => attempt do
    return ⟨(← IO.FS.realPath p.text).toString⟩
  | .current => do
    return ⟨(← IO.currentDir).toString⟩
  | .read p => readFile p
  | .change c => attempt (carryOut c)

/-- Shows an event to the user. -/
def exhibit (f : LogFilter) : Event → IO Unit
  | .printed line => IO.println line
  | .logged r => do
    if f.shows r then
      IO.eprintln s!"[{r.level.name} {LogFilter.recordTarget}] {r.message}"
  | _ => return

/-- Runs a script, under a filter text if there is one. -/
def perform {α : Type} (text : Option String) : Script α → LogFilter → IO α
  | .done a, _ => return a
  | .note e s, f => do
    exhibit f e
    perform text s (filterAfter text f e)
  | .ask r k, f => do
    perform text (k (← answer r)) f

/-- The environment variable with the filter text for log records. -/
def filterVariable : String := "RUST_LOG"

/-- How the program is used. -/
def usage : String :=
  "Usage: symtrace [version | dump --binary PATH | batch PATH... | show PATH]\n" ++
  "  dump and batch: --function NAME, --tracelet STEPS, --allow-overlap, --loop-bound COUNT,\n" ++
  "                  --config PATH, --arch NAME, -v, --verbose\n" ++
  "  batch:          --jobs COUNT\n" ++
  "  show:           --json"

end SymbolicPaths.Program

open SymbolicPaths SymbolicPaths.CommandLine SymbolicPaths.Program in
/-- Runs the command that the words of the command line ask for. -/
def main (words : List String) : IO UInt32 := do
  match Command.ofWords words with
  | .error .misuse =>
    IO.eprintln s!"error: unexpected arguments\n\n{usage}"
    return 2
  | .error .help =>
    IO.println usage
    return 0
  | .error .about =>
    IO.println s!"symtrace {programVersion}"
    return 0
  | .ok command =>
    match ← perform (← IO.getEnv filterVariable) (command.run Gzip.stored).run [] with
    | .ok () => return 0
    | .error e =>
      IO.eprintln s!"Error: {e.message}"
      if let some cause := e.cause? then IO.eprintln s!"\nCaused by:\n    {cause}"
      return 1
