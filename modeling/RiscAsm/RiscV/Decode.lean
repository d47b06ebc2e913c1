import RiscAsm.Register
import RiscAsm.RiscV.Format
import RiscAsm.RiscV.Layout

namespace RiscAsm

namespace RiscV

open Word (bits)

/-- Whether the opcode fields of a word are those of a format. -/
def Format.describes (format : Format) (word : Word) : Bool :=
  let opcode := opcodeOf word
  let low := bits word 14 12
  match format with
  | .register funct3 funct7 => opcode == opRegister && low == funct3 && bits word 31 25 == funct7
  | .aluImmediate funct3 => opcode == opImmediate && low == funct3
  | .load funct3 => opcode == opLoad && low == funct3
  | .jumpLinkRegister => opcode == opJalr && low == 0
  | .store funct3 => opcode == opStore && low == funct3
  | .branch funct3 => opcode == opBranch && low == funct3
  | .upper op => opcode == op
  | .jumpLink => opcode == opJal
  | .reserved => false

/-- The address at a distance from an instruction. -/
def relativeTarget (address : Word) (offset : Int) : Word := address + BitVec.ofInt 32 offset

def memoryText (offset : Int) (base : Nat) : Text :=
  Numeral.signed offset ++ '(' :: Arch.riscv.registerName base ++ [')']

/-- The operands of a word at an address as the assembler reads them; targets are absolute. -/
def operandTexts (word address : Word) (format : Format) : List Text :=
  let register := Arch.riscv.registerName
  match format with
  | .register _ _ =>
    let r := RType.unpack word
    [register r.rd, register r.rs1, register r.rs2]
  | .aluImmediate _ =>
    let i := IType.unpack word
    [register i.rd, register i.rs1, Numeral.signed i.imm]
  | .load _ | .jumpLinkRegister =>
    let i := IType.unpack word
    [register i.rd, memoryText i.imm i.rs1]
  | .store _ =>
    let s := SType.unpack word
    [register s.rs2, memoryText s.imm s.rs1]
  | .branch _ =>
    let b := BType.unpack word
    [register b.rs1, register b.rs2, Numeral.hex (relativeTarget address b.imm).toNat]
  | .upper _ =>
    let u := UType.unpack word
    [register u.rd, Numeral.hex u.imm]
  | .jumpLink =>
    let j := JType.unpack word
    [register j.rd, Numeral.hex (relativeTarget address j.imm).toNat]
  | .reserved => []

end RiscV

end RiscAsm
