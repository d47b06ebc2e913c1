import RiscAsm.Text

namespace RiscAsm

namespace RiscV

def opRegister : Nat := 0x33
def opImmediate : Nat := 0x13
def opLoad : Nat := 0x03
def opStore : Nat := 0x23
def opBranch : Nat := 0x63
def opJalr : Nat := 0x67
def opJal : Nat := 0x6f
def opLui : Nat := 0x37
def opAuipc : Nat := 0x17

/-- The shapes of RISC-V instructions, with the field values that tell their mnemonics apart. -/
inductive Format where
  /-- Operands `rd, rs1, rs2`. -/
  | register (funct3 funct7 : Nat)
  /-- Operands `rd, rs1, imm`. -/
  | aluImmediate (funct3 : Nat)
  /-- Operands `rd, off(rs1)`. -/
  | load (funct3 : Nat)
  /-- Operands `rd, off(rs1)`, `rd, rs1, off`, `rd, rs1` or `rs1`. -/
  | jumpLinkRegister
  /-- Operands `rs2, off(rs1)`. -/
  | store (funct3 : Nat)
  /-- Operands `rs1, rs2, target`. -/
  | branch (funct3 : Nat)
  /-- Operands `rd, imm`. -/
  | upper (opcode : Nat)
  /-- Operands `rd, target`, or `target` with the link register for `rd`. -/
  | jumpLink
  /-- A known mnemonic without an encoding. -/
  | reserved
  deriving DecidableEq

/-- The mnemonics in the order in which decoding searches them. -/
def formats : List (Text × Format) :=
  [("add".toList, .register 0x0 0x00),
    ("sub".toList, .register 0x0 0x20),
    ("sll".toList, .register 0x1 0x00),
    ("slt".toList, .register 0x2 0x00),
    ("sltu".toList, .register 0x3 0x00),
    ("xor".toList, .register 0x4 0x00),
    ("srl".toList, .register 0x5 0x00),
    ("sra".toList, .register 0x5 0x20),
    ("or".toList, .register 0x6 0x00),
    ("and".toList, .register 0x7 0x00),
    ("addi".toList, .aluImmediate 0x0),
    ("slti".toList, .aluImmediate 0x2),
    ("xori".toList, .aluImmediate 0x4),
    ("ori".toList, .aluImmediate 0x6),
    ("andi".toList, .aluImmediate 0x7),
    ("lb".toList, .load 0x0),
    ("lh".toList, .load 0x1),
    ("lw".toList, .load 0x2),
    ("jalr".toList, .jumpLinkRegister),
    ("sb".toList, .store 0x0),
    ("sh".toList, .store 0x1),
    ("sw".toList, .store 0x2),
    ("beq".toList, .branch 0x0),
    ("bne".toList, .branch 0x1),
    ("blt".toList, .branch 0x4),
    ("bge".toList, .branch 0x5),
    ("lui".toList, .upper opLui),
    ("auipc".toList, .upper opAuipc),
    ("jal".toList, .jumpLink),
    ("ecall".toList, .reserved),
    ("ebreak".toList, .reserved),
    ("fence".toList, .reserved)]

end RiscV

end RiscAsm
