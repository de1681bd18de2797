import SymbolicPaths.Files.Script
import SymbolicPaths.Gzip.Stream
import SymbolicPaths.Json.Artifact

/-!
# Artifacts in files

An artifact is stored as compressed JSON. It is written to a file of its own beside the target and
moved there when it is complete, so that the target never holds a part of an artifact.
-/

namespace SymbolicPaths

/-- Why an artifact could not be read or written. -/
inductive ArtifactError where
  /-- An operation on a file failed. -/
  | file (path : Path) (fault : FileFault)
  /-- The compressed stream could not be read or written. -/
  | stream
  /-- The text of the artifact is malformed. -/
  | malformed
  deriving DecidableEq

/-- The text of an artifact error. -/
def ArtifactError.message : ArtifactError → String
  | .file path fault => s!"I/O error on {path.text}: {fault.message}"
  | .stream => "Artifact serialization failed: damaged stream"
  | .malformed => "Artifact serialization failed: malformed text"

/-- Where the artifact of an input is stored. -/
def Path.artifact (input : Path) : Path :=
  input.append ".vex.json.gz"

/-- Where a file is written until it is complete. -/
def Path.unfinished (target : Path) : Path :=
  target.append ".partial"

namespace Artifact

/-! ### Writing -/

/-- How many bytes are written at once. -/
def portionSize : Nat := 8192

/-- The portions in which bytes are written. -/
def portions (bytes : List UInt8) : List (List UInt8) :=
  if bytes.isEmpty then []
  else bytes.take portionSize :: portions (bytes.drop portionSize)
termination_by bytes.length
decreasing_by
  have : bytes.length ≠ 0 := by simp_all
  simp only [List.length_drop, portionSize]
  omega

/-- Asks for an operation that has to succeed. -/
def demand (c : FileChange) (error : FileFault → ArtifactError) :
    ExceptT ArtifactError Script Unit := do
  match ← Script.change c with
  | .ok () => return
  | .error fault => throw (error fault)

/-- Writes an artifact to a file, from its beginning to its stored end. What the compressor hands on
before the text has ended is written in portions. -/
def writeContent (a : Artifact) (z : Gzip.Compressor) (p : Path) :
    ExceptT ArtifactError Script Unit := do
  let text := a.compactText
  demand (.create p) (.file p)
  (portions (z.body text)).forM fun portion =>
    demand (.append p portion) fun _ => .stream
  demand (.append p (z.ending text)) (.file p)
  demand (.flush p) (.file p)
  demand (.sync p) (.file p)

/-- Writes an artifact to a path. If anything fails, the unfinished file is removed as far as that
is possible. -/
def writeTo (a : Artifact) (z : Gzip.Compressor) (p : Path) :
    ExceptT ArtifactError Script Unit := do
  try
    a.writeContent z p.unfinished
    demand (.rename p.unfinished p) (.file p)
  catch error =>
    discard (Script.change (.remove p.unfinished))
    throw error

/-! ### Reading -/

/-- Reads an artifact from a compressed stream. A damaged stream is only at fault if the text before
the damage is not. -/
def ofStream (bytes : List UInt8) : Except ArtifactError Artifact :=
  let unpacked := Gzip.unpack bytes
  match ofText unpacked.content with
  | .ok a => if unpacked.intact then .ok a else .error .stream
  | .error .ended => .error (if unpacked.intact then .malformed else .stream)
  | .error .malformed => .error .malformed

/-- Reads the artifact at a path. -/
def readFrom (p : Path) : ExceptT ArtifactError Script Artifact := do
  match ← Script.read p with
  | .unopened fault => throw (.file p fault)
  | .broken _ => throw .stream
  | .content bytes => ofExcept (ofStream bytes)

end Artifact

end SymbolicPaths
