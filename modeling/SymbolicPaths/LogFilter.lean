import SymbolicPaths.Journal

/-!
# Which log records are shown

The verbosity of a run sets the least severity that is shown. A filter text can override it: a list
of directives, separated by commas, each of which is a level, or the start of a target and the level
for it. Of the directives that apply to a target the longest counts. A directive with a level that
is not known is ignored.
-/

namespace SymbolicPaths

/-- The level shown at a verbosity. -/
def Level.ofVerbosity (verbosity : UInt8) : Level :=
  match verbosity.toNat with
  | 0 => .warn
  | 1 => .info
  | 2 => .debug
  | _ => .trace

/-- The name of a level, as it appears in log lines. -/
def Level.name : Level → String
  | .error => "ERROR"
  | .warn => "WARN"
  | .info => "INFO"
  | .debug => "DEBUG"
  | .trace => "TRACE"

/-- The position of a level, gravest first. -/
def Level.rank : Level → Nat
  | .error => 1
  | .warn => 2
  | .info => 3
  | .debug => 4
  | .trace => 5

/-- A directive: the records whose target starts with `target` are shown up to a level, or not at
all. -/
structure LogDirective where
  target : String
  level : Option Level
  deriving DecidableEq

/-- The directives in force. -/
abbrev LogFilter := List LogDirective

namespace LogFilter

/-- The target of all records. -/
def recordTarget : String := "symtrace_core"

/-- A level by its name, in any case. `off` shows nothing. -/
def level? (text : String) : Option (Option Level) :=
  match text.toLower with
  | "off" => some none
  | "error" => some (some .error)
  | "warn" => some (some .warn)
  | "info" => some (some .info)
  | "debug" => some (some .debug)
  | "trace" => some (some .trace)
  | _ => none

/-- One directive. A lone word that is no level is a target shown in full. -/
def directive? (text : String) : Option LogDirective :=
  match text.splitOn "=" with
  | [word] =>
    match level? word with
    | some level => some ⟨"", level⟩
    | none => some ⟨word, some .trace⟩
  | [target, level] =>
    match level.trimAscii.copy with
    | "" => some ⟨target, some .trace⟩
    | level => (level? level).map fun level => ⟨target, level⟩
  | _ => none

/-- The directives of a filter text. -/
def ofText (text : String) : LogFilter :=
  let parts := (text.splitOn ",").map fun part => part.trimAscii.copy
  (parts.filter (· != "")).filterMap directive?

/-- Puts a directive in force. It replaces one for the same target. -/
def add (f : LogFilter) (d : LogDirective) : LogFilter :=
  f.filter (·.target != d.target) ++ [d]

/-- The filter at a verbosity, with the directives of a filter text if there is one. -/
def forRun (verbosity : UInt8) (text : Option String) : LogFilter :=
  ((text.map ofText).getD []).foldl add [⟨"", some (Level.ofVerbosity verbosity)⟩]

/-- The level up to which records are shown. -/
def shownLevel (f : LogFilter) : Option Level :=
  let applying := f.filter fun d => recordTarget.startsWith d.target
  let longest? (best : Option LogDirective) (d : LogDirective) : Option LogDirective :=
    match best with
    | some b => if b.target.length ≤ d.target.length then some d else some b
    | none => some d
  (applying.foldl longest? none).bind (·.level)

/-- Whether a record is shown. -/
def shows (f : LogFilter) (r : Record) : Bool :=
  match f.shownLevel with
  | some level => r.level.rank ≤ level.rank
  | none => false

end LogFilter

end SymbolicPaths
