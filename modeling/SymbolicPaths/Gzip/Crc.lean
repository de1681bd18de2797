/-!
# Cyclic redundancy checks

The checksum that guards compressed streams: the remainder of the content as a polynomial over two
elements, with the lowest bit first.
-/

namespace SymbolicPaths.Gzip

/-- Divides the lowest bit out of a remainder. -/
def crcBit (c : UInt32) : UInt32 :=
  if c &&& 1 = 1 then (c >>> 1) ^^^ 0xedb88320 else c >>> 1

/-- Takes a byte into a remainder. -/
def crcByte (c : UInt32) (b : UInt8) : UInt32 :=
  crcBit (crcBit (crcBit (crcBit (crcBit (crcBit (crcBit (crcBit (c ^^^ b.toUInt32))))))))

/-- The checksum of some bytes. -/
def crc32 (bytes : List UInt8) : UInt32 :=
  bytes.foldl crcByte 0xffffffff ^^^ 0xffffffff

end SymbolicPaths.Gzip
