import SymbolicPaths.Files.Script
import SymbolicPaths.Json.Options
import SymbolicPaths.Yaml.Options

/-!
# Options in files

The extension of a file tells how the options in it are written. The file is read before its
extension is looked at.
-/

namespace SymbolicPaths

/-- Why options could not be read. -/
inductive OptionsError where
  /-- The file could not be read. -/
  | file (path : Path) (fault : FileFault)
  /-- The JSON text is malformed. -/
  | json
  /-- The YAML text is malformed. -/
  | yaml
  /-- The extension of the path stands for no known format. -/
  | format (path : Path)
  deriving DecidableEq

/-- The text of an options error. -/
def OptionsError.message : OptionsError → String
  | .file path fault => s!"Failed to read config {path.text}: {fault.message}"
  | .json => "Failed to parse JSON config"
  | .yaml => "Failed to parse YAML config"
  | .format path =>
    s!"Unsupported config format for {path.text} (expected .json, .yaml or .yml)"

namespace Options

/-- Reads options from the content of a file. -/
def ofContent (p : Path) (content : List UInt8) : Except OptionsError Options :=
  match String.fromUTF8? ⟨content.toArray⟩ with
  | none => .error (.file p .notText)
  | some text =>
    match p.extension? with
    | some "json" =>
      match ofJson content with
      | .ok o => .ok o
      | .error _ => .error .json
    | some "yaml" | some "yml" =>
      match ofYaml? text with
      | some o => .ok o
      | none => .error .yaml
    | _ => .error (.format p)

/-- Reads the options at a path. -/
def readFrom (p : Path) : ExceptT OptionsError Script Options := do
  match ← Script.read p with
  | .unopened fault | .broken fault => throw (.file p fault)
  | .content bytes => ofExcept (ofContent p bytes)

end Options

end SymbolicPaths
