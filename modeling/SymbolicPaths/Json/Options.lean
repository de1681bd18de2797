import SymbolicPaths.Json.Layout
import SymbolicPaths.Json.Reader
import SymbolicPaths.Json.Writer
import SymbolicPaths.Options

/-!
# Options as JSON

Every member may be missing and then has its default. Members that say nothing are not written: no
filter, no job count, and no exclusions.
-/

namespace SymbolicPaths.Options

open Json Json.Reader

/-- The tokens of options. -/
def tokens (o : Options) : List Token :=
  object <|
    (o.functions.map fun names => ("functions", texts names.toList)).toList ++
    [("tracelet", [.int o.tracelet.toInt]),
      ("allow_overlap", [.bool o.allowOverlap]),
      ("loop_bound", [.int o.loopBound.toNat]),
      ("verbosity", [.int o.verbosity.toNat])] ++
    (if o.registerExclusions.isEmpty then []
      else [("register_exclusions",
        object (o.registerExclusions.toList.map fun e => (e.1, words e.2)))]) ++
    (o.jobs.map fun n => ("jobs", Json.word n)).toList

/-- Options that are being read. -/
structure Draft where
  functions : Option (Option NameSet) := none
  tracelet : Option Int64 := none
  allowOverlap : Option Bool := none
  loopBound : Option UInt32 := none
  verbosity : Option UInt8 := none
  registerExclusions : Option (Std.ExtTreeMap String (List UInt64)) := none
  jobs : Option (Option UInt64) := none

/-- The options that a draft describes. -/
def Draft.complete (d : Draft) : Options where
  functions := d.functions.getD none
  tracelet := d.tracelet.getD ({} : Options).tracelet
  allowOverlap := d.allowOverlap.getD ({} : Options).allowOverlap
  loopBound := d.loopBound.getD ({} : Options).loopBound
  verbosity := d.verbosity.getD ({} : Options).verbosity
  registerExclusions := d.registerExclusions.getD ∅
  jobs := d.jobs.getD none

/-- Reads a set of names. -/
def readNames : Reader NameSet :=
  return .ofList (← list Reader.text)

/-- The fields of options. -/
def fields : List (Member Draft) := [
  ⟨"functions", (·.functions.isSome), fun d =>
    return { d with functions := some (← optional readNames) }⟩,
  ⟨"tracelet", (·.tracelet.isSome), fun d => return { d with tracelet := ← signed }⟩,
  ⟨"allow_overlap", (·.allowOverlap.isSome), fun d =>
    return { d with allowOverlap := ← Reader.bool }⟩,
  ⟨"loop_bound", (·.loopBound.isSome), fun d => return { d with loopBound := ← halfWord }⟩,
  ⟨"verbosity", (·.verbosity.isSome), fun d => return { d with verbosity := ← byte }⟩,
  ⟨"register_exclusions", (·.registerExclusions.isSome), fun d =>
    return { d with registerExclusions := ← map key (list Reader.word) }⟩,
  ⟨"jobs", (·.jobs.isSome), fun d => return { d with jobs := some (← optional Reader.word) }⟩]

/-- Reads options. -/
def read : Reader Options :=
  record fields {} fun d => some d.complete

/-- The text of options, without blanks. -/
def compactText (o : Options) : List UInt8 :=
  compact o.tokens

/-- Reads the text of options. -/
def ofJson (text : List UInt8) : Except Fault Options :=
  readText read text

end SymbolicPaths.Options
