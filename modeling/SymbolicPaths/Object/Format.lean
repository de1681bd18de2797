import SymbolicPaths.Object.Archive
import SymbolicPaths.Object.Elf
import SymbolicPaths.Object.MachO
import SymbolicPaths.Object.Pe

/-!
# Formats of object files

The first bytes of a file tell its format. An archive, an unlinked object file and a file in none of
the known formats are still files, only ones that say nothing about a program; a file in a known
format that cannot be read is no object file at all.
-/

namespace SymbolicPaths

/-- Reads an object file. Nothing is a file that is too short to have a format, or that breaks the
rules of the format it has. -/
def ObjectFile.read? (i : Image) : Option ObjectFile :=
  let first := i.slice 0 16
  if i.size < 16 then none
  else if first.take 4 = [0x7f, 0x45, 0x4c, 0x46] then
    (Elf.read? i).map (·.toObjectFile i.size)
  else if first.take 8 = Archive.magic then
    if Archive.isWellFormed i then some .unknown else none
  else if first.take 2 = [0x4d, 0x5a] then
    (Pe.read? i).map (·.toObjectFile i.size)
  else if Coff.isMachine (Endianness.little.number (first.take 2)) then
    if Coff.isWellFormed i then some .unknown else none
  else if (MachO.Layout.ofMagic? (Endianness.big.number (first.take 4))).isSome then
    (MachO.read? i).map (·.toObjectFile i.size)
  else some .unknown

end SymbolicPaths
