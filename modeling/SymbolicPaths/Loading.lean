import SymbolicPaths.Machine.Word
import SymbolicPaths.Machine.X86
import SymbolicPaths.Object.Format
import SymbolicPaths.Recovery
import SymbolicPaths.Text.Lowercase

/-!
# Loading

From the content of a file to a `Project`. Functions come from the function symbols of the file, or
from its entry point if it has none; blocks are cut at branch targets and after every transfer of
control. No intermediate code is lifted.
-/

namespace SymbolicPaths

/-- The decoder for an architecture, by any of its names. -/
def Decoder.named? : String → Option Decoder
  | "x86_64" | "amd64" => some X86.decodeLong
  | "x86" | "i386" => some X86.decodeShort
  | "arm" | "armv7" => some Word.arm.decode
  | "arm64" | "aarch64" => some Word.arm64.decode
  | "riscv" | "riscv64" | "riscv32" => some Word.riscV.decode
  | "ppc" | "powerpc" | "ppc64" => some Word.powerPc.decode
  | _ => none

/-- The architecture with a given name, in whatever case: little-endian, and of 64 bits unless its
name is known to stand for 32. -/
def Architecture.named (name : String) : Architecture :=
  let name := Case.lowercase name
  let bits := if ["x86", "i386", "arm", "armv7", "riscv32"].contains name then 32 else 64
  ⟨name, bits, .little⟩

/-- How binaries are loaded. -/
structure Loader where
  /-- The architecture to assume where a file does not name a known one. -/
  hint : Option String := none
  /-- How many instructions of a function are decoded at most. -/
  limit : Nat := 65536

namespace Loader

/-- What a loader calls itself. -/
def name : String := "capstone"

/-- Decodes the functions of a file, in order. Functions without code in the file are passed
over. -/
def decode (l : Loader) (decoder : Decoder) (image : Image) :
    List Symbol → Journaled (List DecodedFunction)
  | [] => pure []
  | s :: rest => do
    match s.range with
    | none =>
      Journaled.log .debug s!"No file bytes for {s.name} at {s.address.hex}"
      l.decode decoder image rest
    | some range =>
      let flows := decoder.decode l.limit s.address (image.slice range.start range.stop)
      return ⟨s, flows⟩ :: (← l.decode decoder image rest)

/-- Loads a file from its content. -/
def load (l : Loader) (path : String) (image : Image) :
    ExceptT BinaryError Journaled (Project WalkState) := do
  let some object := ObjectFile.read? image
    | throw (.load path "malformed object file")
  let some architecture := object.architecture <|> l.hint.map Architecture.named
    | throw (.load path "unrecognized architecture")
  let some decoder := Decoder.named? architecture.name
    | throw (.recovery s!"no decoder for architecture {architecture.name}")
  let recovered := Recovered.ofDecoded (← l.decode decoder image (object.functions image.size))
  let functionCount := recovered.functions.length
  let blockCount := recovered.blocks.size
  Journaled.log .debug s!"Recovered {functionCount} functions, {blockCount} blocks from {path}"
  return recovered.toProject ⟨architecture, object.entry, object.routines⟩

end Loader

end SymbolicPaths
