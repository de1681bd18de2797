import SymbolicPaths.Machine.Flow

/-!
# Instructions of one word

Processors whose instructions all take four bytes. An instruction is recognised by the bits that its
mask selects; the bits of a branch offset lie outside the mask.
-/

namespace SymbolicPaths.Word

/-- The operands of an instruction. -/
inductive Operands where
  /-- A fixed text. -/
  | fixed (text : String)
  /-- The target of a branch, after some text. Its offset is a signed number of words in the `width`
  bits above the lowest `low`. -/
  | branch (lead : String) (low width : Nat)
  /-- The target of a branch that tests a bit, after some text with the number of the bit. -/
  | bitBranch (lead : String) (bit : Nat) (low width : Nat)
  /-- The target of a branch over a fixed number of bytes, after some text. -/
  | skip (lead : String) (bytes : Nat)

/-- A row of the instruction table. -/
structure Form where
  mask : Nat
  value : Nat
  mnemonic : String
  operands : Operands
  kind : InstructionKind

/-- A row that stands for a single word. -/
def Form.single (value : Nat) (mnemonic operands : String) (kind : InstructionKind) : Form :=
  ⟨0xffffffff, value, mnemonic, .fixed operands, kind⟩

/-- An instruction set. -/
structure Processor where
  forms : List Form
  /-- What stands before the target of a branch. -/
  sign : String
  /-- How far the base of a branch lies behind its instruction. -/
  ahead : Nat
  /-- The number of addresses. -/
  space : Nat
  /-- How a number among the operands is seen as an address, if it is. -/
  seen : Nat → Option Address

/-- The text of the operands of a word, and the first number among them. -/
def Operands.render (p : Processor) (a : Address) (word : Nat) : Operands → String × Option Nat
  | .fixed text => (text, none)
  | .branch lead low width =>
    let target := target low width
    (lead ++ p.sign ++ operandText target, some target)
  | .bitBranch lead bit low width => (lead ++ p.sign ++ operandText (target low width), some bit)
  | .skip lead bytes =>
    let target := displaced a.toNat bytes p.space
    (lead ++ p.sign ++ operandText target, some target)
where
  /-- The target of a branch with its offset in the given bits. -/
  target (low width : Nat) : Nat :=
    let words := signedNumber width ((word >>> low) % (1 <<< width))
    displaced (a.toNat + p.ahead) (4 * words) p.space

/-- Decodes instructions of one word each. Words are stored lowest byte first. The target of a jump
is the first number among its operands. -/
def Processor.decode (p : Processor) : Decoder := fun a bytes =>
  match bytes with
  | b₀ :: b₁ :: b₂ :: b₃ :: _ =>
    let word := Endianness.little.number [b₀, b₁, b₂, b₃]
    (p.forms.find? fun f => word &&& f.mask = f.value).map fun f =>
      let (operands, number) := f.operands.render p a word
      ⟨4, f.mnemonic, operands, f.kind.transfer f.mnemonic (number.bind p.seen)⟩
  | _ => none

/-- Every number is an address. -/
def seenAsIs (n : Nat) : Option Address :=
  some (.ofNat n)

/-- Numbers of 32 bits are extended to addresses by their sign. -/
def seenSigned (n : Nat) : Option Address :=
  some (.ofNat (displaced 0 (signedNumber 32 n) UInt64.size))

/-- No number is seen as an address. -/
def unseen (_ : Nat) : Option Address :=
  none

/-! ### Instruction sets -/

/-- 64-bit ARM. -/
def arm64 : Processor where
  sign := "#"
  ahead := 0
  space := UInt64.size
  seen := seenAsIs
  forms := [
    .single 0xd503201f "nop" "" .plain,
    .single 0xd4000001 "svc" "#0" .plain,
    .single 0xd2800020 "mov" "x0, #1" .plain,
    .single 0x91000400 "add" "x0, x0, #1" .plain,
    .single 0xd4200000 "brk" "#0" .plain,
    .single 0xd69f03e0 "eret" "" .plain,
    .single 0xd65f03c0 "ret" "" .ret,
    .single 0xd63f0000 "blr" "x0" .call,
    ⟨0xfc000000, 0x94000000, "bl", .branch "" 0 26, .call⟩,
    .single 0xd61f0000 "br" "x0" .jump,
    ⟨0xfc000000, 0x14000000, "b", .branch "" 0 26, .jump⟩,
    ⟨0xff00001f, 0x54000000, "b.eq", .branch "" 5 19, .jump⟩,
    ⟨0xff00001f, 0x54000001, "b.ne", .branch "" 5 19, .jump⟩,
    ⟨0xff00001f, 0x5400000a, "b.ge", .branch "" 5 19, .jump⟩,
    ⟨0xff00001f, 0x5400000b, "b.lt", .branch "" 5 19, .jump⟩,
    ⟨0xff00001f, 0x5400000c, "b.gt", .branch "" 5 19, .jump⟩,
    ⟨0xff00001f, 0x5400000d, "b.le", .branch "" 5 19, .jump⟩,
    ⟨0xff00001f, 0xb4000000, "cbz", .branch "x0, " 5 19, .jump⟩,
    ⟨0xff00001f, 0xb5000000, "cbnz", .branch "x0, " 5 19, .jump⟩,
    ⟨0xfff8001f, 0x36180000, "tbz", .bitBranch "w0, #3, " 3 5 14, .jump⟩,
    ⟨0xfff8001f, 0x37180000, "tbnz", .bitBranch "w0, #3, " 3 5 14, .jump⟩]

/-- 32-bit ARM. -/
def arm : Processor where
  sign := "#"
  ahead := 8
  space := UInt32.size
  seen := seenSigned
  forms := [
    .single 0xe320f000 "nop" "" .plain,
    .single 0xe1a00000 "mov" "r0, r0" .plain,
    .single 0xe3a00001 "mov" "r0, #1" .plain,
    .single 0xe1a0f00e "mov" "pc, lr" .plain,
    .single 0xef000000 "svc" "#0" .plain,
    .single 0xe2800001 "add" "r0, r0, #1" .plain,
    .single 0x00000000 "andeq" "r0, r0, r0" .plain,
    ⟨0xff000000, 0xeb000000, "bl", .branch "" 0 24, .call⟩,
    ⟨0xff000000, 0x0b000000, "bleq", .branch "" 0 24, .call⟩,
    .single 0xe12fff33 "blx" "r3" .call,
    .single 0xe12fff1e "bx" "lr" .jump,
    .single 0xe12fff10 "bx" "r0" .jump,
    .single 0x012fff1e "bxeq" "lr" .jump,
    ⟨0xff000000, 0xea000000, "b", .branch "" 0 24, .jump⟩,
    ⟨0xff000000, 0x0a000000, "beq", .branch "" 0 24, .jump⟩,
    ⟨0xff000000, 0x1a000000, "bne", .branch "" 0 24, .jump⟩,
    ⟨0xff000000, 0x2a000000, "bhs", .branch "" 0 24, .jump⟩,
    ⟨0xff000000, 0x3a000000, "blo", .branch "" 0 24, .jump⟩,
    ⟨0xff000000, 0x4a000000, "bmi", .branch "" 0 24, .jump⟩,
    ⟨0xff000000, 0x5a000000, "bpl", .branch "" 0 24, .jump⟩,
    ⟨0xff000000, 0x8a000000, "bhi", .branch "" 0 24, .jump⟩,
    ⟨0xff000000, 0x9a000000, "bls", .branch "" 0 24, .jump⟩,
    ⟨0xff000000, 0xaa000000, "bge", .branch "" 0 24, .jump⟩,
    ⟨0xff000000, 0xba000000, "blt", .branch "" 0 24, .jump⟩,
    ⟨0xff000000, 0xca000000, "bgt", .branch "" 0 24, .jump⟩,
    ⟨0xff000000, 0xda000000, "ble", .branch "" 0 24, .jump⟩]

/-- RISC-V. Branches show their offset. -/
def riscV : Processor where
  sign := ""
  ahead := 0
  space := UInt64.size
  seen := unseen
  forms := [
    .single 0x00000013 "nop" "" .plain,
    .single 0x00008067 "ret" "" .plain,
    .single 0x0040006f "j" "4" .plain,
    .single 0x008000ef "jal" "8" .plain,
    .single 0x00050067 "jr" "a0" .plain,
    .single 0x000500e7 "jalr" "a0" .plain,
    .single 0x00000073 "ecall" "" .plain,
    .single 0x00100073 "ebreak" "" .plain,
    .single 0x00150513 "addi" "a0, a0, 1" .plain,
    .single 0x00050463 "beqz" "a0, 8" .jump,
    .single 0x00051463 "bnez" "a0, 8" .jump,
    .single 0x00054463 "bltz" "a0, 8" .jump,
    .single 0x00055463 "bgez" "a0, 8" .jump,
    .single 0x00056463 "bltu" "a0, zero, 8" .jump]

/-- 64-bit PowerPC. -/
def powerPc : Processor where
  sign := ""
  ahead := 0
  space := UInt64.size
  seen := unseen
  forms := [
    .single 0x60000000 "nop" "" .plain,
    .single 0x38600001 "li" "r3, 1" .plain,
    .single 0x44000002 "sc" "" .plain,
    .single 0x7c0802a6 "mflr" "r0" .plain,
    .single 0x4e800020 "blr" "" .jump,
    .single 0x4e800420 "bctr" "" .jump,
    .single 0x4e800421 "bctrl" "" .jump,
    ⟨0xffffffff, 0x48000008, "b", .skip "" 8, .jump⟩,
    ⟨0xffffffff, 0x48000009, "bl", .skip "" 8, .jump⟩,
    ⟨0xffffffff, 0x41820008, "beq", .skip "" 8, .jump⟩,
    ⟨0xffffffff, 0x40820008, "bne", .skip "" 8, .jump⟩,
    ⟨0xffffffff, 0x4180000c, "blt", .skip "" 12, .jump⟩,
    ⟨0xffffffff, 0x42000008, "bdnz", .skip "" 8, .jump⟩]

end SymbolicPaths.Word
