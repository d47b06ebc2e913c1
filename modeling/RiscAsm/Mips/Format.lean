import RiscAsm.Text

namespace RiscAsm

namespace Mips

/-- The shapes of MIPS instructions, with the field values that tell their mnemonics apart. -/
inductive Format where
  /-- Operands `rd, rs, rt`. -/
  | alu (funct : Nat)
  /-- Operands `rd, rt, shamt`. -/
  | shift (funct : Nat)
  /-- Operand `rs`. -/
  | jumpRegister (funct : Nat)
  /-- Operands `rd, rs`, or `rs` with the link register for `rd`. -/
  | jumpLinkRegister (funct : Nat)
  /-- Operands `rt, rs, imm`. -/
  | aluImmediate (opcode : Nat) (signed : Bool)
  /-- Operands `rt, imm`. -/
  | loadUpper (opcode : Nat)
  /-- Operands `rt, off(rs)`. -/
  | memory (opcode : Nat)
  /-- Operands `rs, rt, target`. -/
  | branch (opcode : Nat)
  /-- Operands `rs, target`; the field `rt` belongs to the opcode. -/
  | branchZero (opcode rt : Nat)
  /-- Operand `target`, an absolute address. -/
  | jump (opcode : Nat)
  /-- A known mnemonic without an encoding. -/
  | reserved
  deriving DecidableEq

/-- The mnemonics in the order in which decoding searches them. -/
def formats : List (Text × Format) :=
  [("add".toList, .alu 0x20),
    ("sub".toList, .alu 0x22),
    ("and".toList, .alu 0x24),
    ("or".toList, .alu 0x25),
    ("xor".toList, .alu 0x26),
    ("nor".toList, .alu 0x27),
    ("slt".toList, .alu 0x2a),
    ("sll".toList, .shift 0x00),
    ("srl".toList, .shift 0x02),
    ("sra".toList, .shift 0x03),
    ("jr".toList, .jumpRegister 0x08),
    ("jalr".toList, .jumpLinkRegister 0x09),
    ("addi".toList, .aluImmediate 0x08 true),
    ("slti".toList, .aluImmediate 0x0a true),
    ("andi".toList, .aluImmediate 0x0c false),
    ("ori".toList, .aluImmediate 0x0d false),
    ("xori".toList, .aluImmediate 0x0e false),
    ("lui".toList, .loadUpper 0x0f),
    ("beq".toList, .branch 0x04),
    ("blez".toList, .branchZero 0x06 0),
    ("bltz".toList, .branchZero 0x01 0),
    ("j".toList, .jump 0x02),
    ("jal".toList, .jump 0x03),
    ("lb".toList, .memory 0x20),
    ("lh".toList, .memory 0x21),
    ("lw".toList, .memory 0x23),
    ("sb".toList, .memory 0x28),
    ("sh".toList, .memory 0x29),
    ("sw".toList, .memory 0x2b),
    ("syscall".toList, .reserved),
    ("mult".toList, .reserved),
    ("multu".toList, .reserved),
    ("div".toList, .reserved),
    ("divu".toList, .reserved),
    ("mfhi".toList, .reserved),
    ("mflo".toList, .reserved)]

end Mips

end RiscAsm
