import SymbolicPaths.Batch
import SymbolicPaths.CommandLine.Command
import SymbolicPaths.LogFilter
import SymbolicPaths.OptionsFile

/-!
# Running commands

A command is a script: it reads and writes files, prints lines, and either succeeds or fails with a
message.
-/

namespace SymbolicPaths.CommandLine

/-- The version of the program. -/
def programVersion : String := "0.1.0"

/-- Why a command failed. -/
inductive CommandError where
  /-- The options file could not be read. -/
  | options (path : String) (cause : OptionsError)
  /-- The binary could not be processed. -/
  | processing (path : Path) (cause : ProcessingError)
  /-- The artifact could not be read. -/
  | reading (path : Path) (cause : ArtifactError)
  /-- Some inputs of a batch failed. -/
  | inputsFailed (failed total : Nat)
  deriving DecidableEq

namespace CommandError

/-- The text of a command error. -/
def message : CommandError → String
  | .options path _ => s!"Failed to load options from {path}"
  | .processing path _ => s!"Failed to process {path.text}"
  | .reading path _ => s!"Failed to read artifact {path.text}"
  | .inputsFailed failed total => s!"{failed} of {total} inputs failed"

/-- The text of what caused a command error. -/
def cause? : CommandError → Option String
  | .options _ cause => some cause.message
  | .processing _ cause => some cause.message
  | .reading _ cause => some cause.message
  | .inputsFailed .. => none

end CommandError

/-- The options after what was chosen on the command line. -/
def Choices.apply (c : Choices) (o : Options) : Options :=
  { o with
    functions := if c.functions.isEmpty then o.functions else some (.ofList c.functions)
    tracelet := c.tracelet.getD o.tracelet
    allowOverlap := o.allowOverlap || c.allowOverlap
    loopBound := c.loopBound.getD o.loopBound
    verbosity := max o.verbosity c.verbosity }

/-- The options of a command: those of the options file, and what was chosen on the command line. -/
def Choices.options (c : Choices) : ExceptT CommandError Script Options := do
  match c.config with
  | none => return c.apply {}
  | some path => return c.apply (← (Options.readFrom ⟨path⟩).adapt (.options path))

/-- The loader of a command. -/
def Choices.loader (c : Choices) : Loader where
  hint := c.architecture

/-- The absolute path of an input: the one of what stands there, or else the path as it was
written. -/
def locateInput (text : String) : Script Path := do
  let path : Path := ⟨text⟩
  match ← Script.request (.resolve path) with
  | .ok found => return found
  | .error _ => return (← Script.request .current).join path

/-- Dumps one binary. -/
def runDump (z : Gzip.Compressor) (binary : String) (c : Choices) :
    ExceptT CommandError Script Unit := do
  let options ← c.options
  Script.report (.verbositySet options.verbosity)
  let input ← locateInput binary
  match ← (processFile z c.loader.loadFile options input).adapt (.processing input) with
  | .written path => Script.print s!"Wrote: {path.text}"
  | .cached path => Script.print s!"Cached: {path.text}"

/-- The lines about a batch. -/
def batchLines (r : BatchReport) : List String :=
  let written := r.written.length
  let cached := r.cached.length
  let failed := r.failed.length
  [s!"Processed {r.total} binaries: {written} written, {cached} cached, {failed} failed"]
    ++ r.written.map (fun path => s!"  wrote  {path.text}")
    ++ r.cached.map (fun path => s!"  cached {path.text}")
    ++ r.failed.map (fun (input, reason) => s!"  failed {input.text}: {reason}")

/-- Dumps several binaries. -/
def runBatch (z : Gzip.Compressor) (binaries : List String) (jobs : Option UInt64) (c : Choices) :
    ExceptT CommandError Script Unit := do
  let options ← c.options
  let options := { options with jobs := jobs <|> options.jobs }
  Script.report (.verbositySet options.verbosity)
  let inputs ← binaries.mapM fun binary => (locateInput binary : Script Path)
  let report ← processAll z c.loader.loadFile options inputs
  (batchLines report).forM fun line => (Script.print line : Script Unit)
  unless report.isSuccess do throw (.inputsFailed report.failed.length report.total)

/-- The lines about an artifact. -/
def artifactLines (path : Path) (a : Artifact) : List String :=
  let architecture := a.binary.architecture
  let functions := a.functions.length
  [s!"Artifact: {path.text}",
    s!"  Arch: {architecture.name} ({architecture.bits.toNat}-bit)",
    s!"  Entry: {a.binary.entry.hex}",
    s!"  Routines: {a.binary.routines.size}",
    s!"  Blocks: {a.blocks.length}",
    s!"  Functions ({functions}):"]
    ++ (if a.functions.isEmpty then ["    (none)"] else [])
    ++ a.functions.map fun f =>
      let paths := f.paths.length
      s!"    - {f.name} @ {f.address.hex} [blocks: {f.blockCount.toNat}, paths: {paths}]"

/-- Shows an artifact. -/
def runShow (artifact : String) (json : Bool) : ExceptT CommandError Script Unit := do
  let path ← locateInput artifact
  let a ← (Artifact.readFrom path).adapt (.reading path)
  if json then Script.print (Text.ofBytes a.prettyText)
  else (artifactLines path a).forM fun line => (Script.print line : Script Unit)

/-- Runs a command. -/
def Command.run (z : Gzip.Compressor) : Command → ExceptT CommandError Script Unit
  | .version => Script.print s!"symtrace v{programVersion}"
  | .dump binary choices => runDump z binary choices
  | .batch binaries jobs choices => runBatch z binaries jobs choices
  | .display artifact json => runShow artifact json

/-! ### What a run shows -/

/-- The lines that a run prints. -/
def printedLines (events : List Event) : List String :=
  events.filterMap fun
    | .printed line => some line
    | _ => none

/-- The filter in force after an event. A run that sets no verbosity shows no records. -/
def filterAfter (text : Option String) (f : LogFilter) : Event → LogFilter
  | .verbositySet verbosity => .forRun verbosity text
  | _ => f

/-- The log records that a run shows, under a filter text if there is one. -/
def shownRecords (text : Option String) : LogFilter → List Event → List Record
  | _, [] => []
  | f, .logged r :: rest =>
    if f.shows r then r :: shownRecords text f rest else shownRecords text f rest
  | f, e :: rest => shownRecords text (filterAfter text f e) rest

end SymbolicPaths.CommandLine
