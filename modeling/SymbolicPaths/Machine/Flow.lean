import SymbolicPaths.Object.Image
import SymbolicPaths.Project

/-!
# Instruction flow

A `Flow` is a decoded instruction together with where control goes after it. A `Decoder` reads one
instruction from the bytes at an address, and `Decoder.decode` reads as many as it can.
-/

namespace SymbolicPaths

/-- Where control goes after an instruction. -/
inductive Transfer where
  /-- To the next instruction. -/
  | plain
  /-- To a routine, and from there back to the next instruction. -/
  | call
  /-- Back to the caller. -/
  | ret
  /-- To the target, where it is known, and to the next instruction as well if conditional. -/
  | jump (target : Option Address) (conditional : Bool)
  deriving DecidableEq

/-- The known target of a jump. -/
def Transfer.target? : Transfer → Option Address
  | .jump target _ => target
  | _ => none

/-- A decoded instruction, its length in bytes, and where control goes after it. -/
structure Flow where
  instruction : Instruction
  size : UInt64
  transfer : Transfer
  deriving DecidableEq

/-- The address of the instruction. -/
def Flow.address (f : Flow) : Address :=
  f.instruction.address

/-- The family of an instruction, as instruction tables list it. -/
inductive InstructionKind where
  | plain
  | call
  | ret
  | jump
  deriving DecidableEq

/-- Whether a jump with this mnemonic may also fall through. -/
def isConditional (mnemonic : String) : Bool :=
  mnemonic.startsWith "j" && mnemonic != "jmp" && mnemonic != "jr" ||
    mnemonic.startsWith "b." ||
    ["cbz", "cbnz", "tbz", "tbnz", "beq", "bne", "blt", "bge"].contains mnemonic

/-- Where control goes after an instruction of a family. -/
def InstructionKind.transfer (mnemonic : String) (target : Option Address) :
    InstructionKind → Transfer
  | .plain => .plain
  | .call => .call
  | .ret => .ret
  | .jump => .jump target (isConditional mnemonic)

/-- A number as an operand: in hexadecimal, unless it is a single decimal digit. -/
def operandText (n : Nat) : String :=
  if n < 10 then hexDigits n else hexText n

/-- The number that an offset leads to from a base, in an address space of `space` addresses. -/
def displaced (base : Nat) (offset : Int) (space : Nat) : Nat :=
  ((base + offset) % space).toNat

/-- The signed reading of a number of `bits` bits. -/
def signedNumber (bits n : Nat) : Int :=
  if n < 1 <<< (bits - 1) then n else (n : Int) - (1 <<< bits : Nat)

/-- An instruction without its address. -/
structure Decoded where
  length : Nat
  mnemonic : String
  operands : String
  transfer : Transfer
  deriving DecidableEq

/-- Reads the instruction at an address from the bytes there. -/
abbrev Decoder := Address → List UInt8 → Option Decoded

/-- Decodes instructions one after the other, at most `limit` of them, up to the first bytes that
are no instruction. -/
def Decoder.decode (d : Decoder) : (limit : Nat) → Address → List UInt8 → List Flow
  | 0, _, _ => []
  | limit + 1, a, bytes =>
    match d a bytes with
    | none => []
    | some i =>
      ⟨⟨a, i.mnemonic, i.operands⟩, .ofNat i.length, i.transfer⟩ ::
        d.decode limit (a + .ofNat i.length) (bytes.drop i.length)

end SymbolicPaths
