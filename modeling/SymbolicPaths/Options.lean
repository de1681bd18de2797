import SymbolicPaths.Extraction

/-!
# Options

What the user can choose about a dump. Every option has a default.
-/

namespace SymbolicPaths

/-- The options of a dump. -/
structure Options where
  /-- Names of the functions to keep. Without it all are kept. -/
  functions : Option NameSet := none
  /-- Length of tracelets. A negative length stands for full exploration. -/
  tracelet : Int64 := -1
  /-- Whether tracelets may pass blocks that an earlier path has passed. -/
  allowOverlap : Bool := false
  /-- How often a single back edge may be taken. -/
  loopBound : UInt32 := 1
  /-- How much to report. Above 1 a failure is no longer recovered from. -/
  verbosity : UInt8 := 0
  /-- Further registers to leave out, by architecture. -/
  registerExclusions : Std.ExtTreeMap String (List UInt64) := ∅
  /-- Number of binaries processed at the same time. -/
  jobs : Option UInt64 := none
  deriving DecidableEq

namespace Options

/-- How functions are explored. -/
def mode (o : Options) : ExplorationMode :=
  .ofTracelet o.tracelet o.allowOverlap

/-- Whether failures abort a dump. -/
def strict (o : Options) : Bool :=
  1 < o.verbosity

/-- The built-in exclusions and those of the options. -/
def exclusionTable (o : Options) : ExclusionTable :=
  o.registerExclusions.toList.foldl (fun t (name, offsets) => t.extend name offsets) .builtIn

end Options

end SymbolicPaths
