import SymbolicPaths.Machine.Flow

/-!
# x86 instructions

Instructions of the x86 family in 64-bit and 32-bit mode, as a table of opcodes. An opcode may be
followed by a displacement, which is relative to the end of the instruction.
-/

namespace SymbolicPaths.X86

/-- A row of the instruction table. -/
structure Form where
  opcode : List UInt8
  /-- The width of the displacement after the opcode, in bytes. -/
  displacement : Nat
  mnemonic : String
  /-- The operands of an instruction without displacement. -/
  operands : String
  kind : InstructionKind

/-- Instructions without displacement that are the same in both modes. -/
def sharedForms : List Form := [
  ⟨[0x90], 0, "nop", "", .plain⟩,
  ⟨[0xcc], 0, "int3", "", .plain⟩,
  ⟨[0xf4], 0, "hlt", "", .plain⟩,
  ⟨[0xc9], 0, "leave", "", .plain⟩,
  ⟨[0x31, 0xc0], 0, "xor", "eax, eax", .plain⟩,
  ⟨[0x85, 0xff], 0, "test", "edi, edi", .plain⟩,
  ⟨[0xff, 0xc0], 0, "inc", "eax", .plain⟩,
  ⟨[0x0f, 0x0b], 0, "ud2", "", .plain⟩,
  ⟨[0xcd, 0x80], 0, "int", "0x80", .plain⟩,
  ⟨[0x0f, 0x05], 0, "syscall", "", .plain⟩,
  ⟨[0xb8, 0x01, 0x00, 0x00, 0x00], 0, "mov", "eax, 1", .plain⟩,
  ⟨[0xc3], 0, "ret", "", .ret⟩,
  ⟨[0xf3, 0xc3], 0, "ret", "", .ret⟩,
  ⟨[0xf2, 0xc3], 0, "bnd ret", "", .ret⟩,
  ⟨[0xc2, 0x08, 0x00], 0, "ret", "8", .ret⟩,
  ⟨[0xcb], 0, "retf", "", .ret⟩]

/-- Instructions with a displacement that are the same in both modes. -/
def relativeForms : List Form := [
  ⟨[0xe2], 1, "loop", "", .plain⟩,
  ⟨[0xe8], 4, "call", "", .call⟩,
  ⟨[0xeb], 1, "jmp", "", .jump⟩,
  ⟨[0xe9], 4, "jmp", "", .jump⟩,
  ⟨[0xf2, 0xeb], 1, "bnd jmp", "", .jump⟩,
  ⟨[0x70], 1, "jo", "", .jump⟩,
  ⟨[0x72], 1, "jb", "", .jump⟩,
  ⟨[0x74], 1, "je", "", .jump⟩,
  ⟨[0x75], 1, "jne", "", .jump⟩,
  ⟨[0x77], 1, "ja", "", .jump⟩,
  ⟨[0x78], 1, "js", "", .jump⟩,
  ⟨[0x7c], 1, "jl", "", .jump⟩,
  ⟨[0x7d], 1, "jge", "", .jump⟩,
  ⟨[0x7e], 1, "jle", "", .jump⟩,
  ⟨[0x7f], 1, "jg", "", .jump⟩,
  ⟨[0x0f, 0x84], 4, "je", "", .jump⟩,
  ⟨[0x0f, 0x85], 4, "jne", "", .jump⟩]

/-- Instructions of 64-bit mode. -/
def longForms : List Form := [
  ⟨[0x55], 0, "push", "rbp", .plain⟩,
  ⟨[0x5d], 0, "pop", "rbp", .plain⟩,
  ⟨[0x00, 0x00], 0, "add", "byte ptr [rax], al", .plain⟩,
  ⟨[0x48, 0x89, 0xe5], 0, "mov", "rbp, rsp", .plain⟩,
  ⟨[0xff, 0xd0], 0, "call", "rax", .call⟩,
  ⟨[0xff, 0xe0], 0, "jmp", "rax", .jump⟩,
  ⟨[0xe3], 1, "jrcxz", "", .jump⟩]

/-- Instructions of 32-bit mode. -/
def shortForms : List Form := [
  ⟨[0x55], 0, "push", "ebp", .plain⟩,
  ⟨[0x5d], 0, "pop", "ebp", .plain⟩,
  ⟨[0x00, 0x00], 0, "add", "byte ptr [eax], al", .plain⟩,
  ⟨[0x89, 0xe5], 0, "mov", "ebp, esp", .plain⟩,
  ⟨[0xff, 0xd0], 0, "call", "eax", .call⟩,
  ⟨[0xff, 0xe0], 0, "jmp", "eax", .jump⟩,
  ⟨[0xe3], 1, "jecxz", "", .jump⟩]

/-- Reads a row of the table at the start of some bytes, in an address space of `space`
addresses. -/
def Form.decode? (f : Form) (space : Nat) (a : Address) (bytes : List UInt8) : Option Decoded :=
  let length := f.opcode.length + f.displacement
  if f.opcode.isPrefixOf bytes && length ≤ bytes.length then
    if f.displacement = 0 then
      some ⟨length, f.mnemonic, f.operands, f.kind.transfer f.mnemonic none⟩
    else
      let digits := (bytes.drop f.opcode.length).take f.displacement
      let offset := signedNumber (8 * f.displacement) (Endianness.little.number digits)
      let target := displaced (a.toNat + length) offset space
      some ⟨length, f.mnemonic, operandText target,
        f.kind.transfer f.mnemonic (some (.ofNat target))⟩
  else none

/-- Decodes 64-bit code. -/
def decodeLong : Decoder := fun a bytes =>
  (sharedForms ++ relativeForms ++ longForms).findSome? (·.decode? UInt64.size a bytes)

/-- Decodes 32-bit code. -/
def decodeShort : Decoder := fun a bytes =>
  (sharedForms ++ relativeForms ++ shortForms).findSome? (·.decode? UInt32.size a bytes)

end SymbolicPaths.X86
