import SymbolicPaths.Gzip.Crc
import SymbolicPaths.Gzip.Inflate

/-!
# Compressed streams

A stream has a header, compressed data, and the checksum and length of what was compressed.
`unpack` reads the first stream of some bytes and ignores what follows it. How well a stream is
compressed is up to the `Compressor` that makes it.
-/

namespace SymbolicPaths.Gzip

/-! ### The parts of a stream -/

/-- The four bytes of a number, lowest first. -/
def wordBytes (n : UInt32) : List UInt8 :=
  [n.toUInt8, (n >>> 8).toUInt8, (n >>> 16).toUInt8, (n >>> 24).toUInt8]

/-- The header of a stream without name, comment or time. -/
def plainHeader : List UInt8 :=
  [0x1f, 0x8b, 0x08, 0, 0, 0, 0, 0, 0, 0xff]

/-- The check after the compressed data: the checksum of the content and its length. -/
def trailer (content : List UInt8) : List UInt8 :=
  wordBytes (crc32 content) ++ wordBytes (.ofNat content.length)

/-! ### Unpacking -/

/-- What follows a text that a zero byte ends. -/
def afterZero? : List UInt8 → Option (List UInt8)
  | [] => none
  | b :: rest => if b = 0 then some rest else afterZero? rest

/-- What follows the optional fields of a header, according to its flags. -/
def afterOptions? (flags : UInt8) (bytes : List UInt8) : Option (List UInt8) := do
  let bytes ←
    if flags &&& 4 = 0 then some bytes
    else match bytes with
      | low :: high :: rest =>
        let length := low.toNat + 256 * high.toNat
        if rest.length < length then none else some (rest.drop length)
      | _ => none
  let bytes ← if flags &&& 8 = 0 then some bytes else afterZero? bytes
  if flags &&& 16 = 0 then some bytes else afterZero? bytes

/-- What follows the header of a stream. A header may have a checksum of its own. -/
def afterHeader? (bytes : List UInt8) : Option (List UInt8) :=
  match bytes with
  | 0x1f :: 0x8b :: 0x08 :: flags :: _ :: _ :: _ :: _ :: _ :: _ :: rest => do
    if flags &&& 0xe0 ≠ 0 then none
    let rest ← afterOptions? flags rest
    if flags &&& 2 = 0 then return rest
    let header := bytes.take (bytes.length - rest.length)
    match rest with
    | low :: high :: rest =>
      if low :: [high] = (wordBytes (crc32 header)).take 2 then return rest else none
    | _ => none
  | _ => none

/-- Unpacked content. -/
structure Unpacked where
  content : List UInt8
  /-- Whether the stream was read to its end and passed its check. -/
  intact : Bool

/-- Reads a stream. Of a damaged one, what comes before the damage is still read. -/
def unpack (bytes : List UInt8) : Unpacked :=
  match afterHeader? bytes with
  | none => ⟨[], false⟩
  | some data =>
    let inflated := inflate data
    match inflated.rest with
    | .error _ => ⟨inflated.output, false⟩
    | .ok rest => ⟨inflated.output, rest.take 8 = trailer inflated.output⟩

/-! ### Compressors -/

/-- A way to make streams, by the bytes that are handed on while content is taken in and those that
are handed on when it has ended. Unpacking gives back the content. -/
structure Compressor where
  body : List UInt8 → List UInt8
  ending : List UInt8 → List UInt8
  unpack_stream : ∀ content, unpack (body content ++ ending content) = ⟨content, true⟩

/-- The whole stream of some content. -/
def Compressor.stream (z : Compressor) (content : List UInt8) : List UInt8 :=
  z.body content ++ z.ending content

end SymbolicPaths.Gzip
