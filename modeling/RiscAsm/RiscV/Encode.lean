import RiscAsm.LabelTable
import RiscAsm.Operand
import RiscAsm.RiscV.Format
import RiscAsm.RiscV.Layout

namespace RiscAsm

namespace RiscV

/-- Immediates and offsets of loads, stores and register jumps have twelve bits. -/
def immediate12 (value : Int) : Except Fault Int := do
  let _ ← Operand.signedField value 12 "immediate".toList
  return value

/-- The distance in bytes from a branch or jump to its target, an even number. -/
def pcRelative (labels : LabelTable) (address : Word) (width : Nat) (token : Text) : Except Fault Int := do
  let target ← labels.target token
  let offset : Int := target.toNat - address.toNat
  if offset % 2 = 0 then
    let _ ← Operand.signedField offset width "pc-relative offset".toList
    return offset
  else throw (.invalidOperand (.oddOffset offset token))

/-- The link register, the base register and the offset of a register jump. -/
def jumpOperands (ops : List Text) : Except Fault (Nat × Nat × Int) :=
  match ops with
  | [rs1] => do
    let rs1 ← Operand.register .riscv rs1
    return (Arch.riscv.linkRegister, rs1, 0)
  | [rd, base] =>
    if Operand.isMemory base then do
      let (offset, rs1) ← Operand.memory .riscv base
      let rd ← Operand.register .riscv rd
      return (rd, rs1, offset)
    else do
      let rd ← Operand.register .riscv rd
      let rs1 ← Operand.register .riscv base
      return (rd, rs1, 0)
  | [rd, rs1, token] => do
    let rd ← Operand.register .riscv rd
    let rs1 ← Operand.register .riscv rs1
    let offset ← Operand.immediate token
    return (rd, rs1, offset)
  | _ => Operand.wrongShape ["rd, off(rs1)".toList, "rd, rs1, off".toList, "rs1".toList]

/-- The word of an instruction at an address. Where several operands are at fault, an immediate, a
memory operand or a branch target is reported before a register. -/
def encode (labels : LabelTable) (address : Word) (mnemonic : Text) (ops : List Text) :
    Format → Except Fault Word
  | .register funct3 funct7 => do
    let (rd, rs1, rs2) ← Operand.three "rd, rs1, rs2".toList ops
    let rs2 ← Operand.register .riscv rs2
    let rs1 ← Operand.register .riscv rs1
    let rd ← Operand.register .riscv rd
    return RType.pack { funct7, rs2, rs1, funct3, rd, opcode := opRegister }
  | .aluImmediate funct3 => do
    let (rd, rs1, token) ← Operand.three "rd, rs1, imm".toList ops
    let value ← Operand.immediate token
    let imm ← immediate12 value
    let rs1 ← Operand.register .riscv rs1
    let rd ← Operand.register .riscv rd
    return IType.pack { imm, rs1, funct3, rd, opcode := opImmediate }
  | .load funct3 => do
    let (rd, token) ← Operand.two "rd, off(rs1)".toList ops
    let (offset, rs1) ← Operand.memory .riscv token
    let imm ← immediate12 offset
    let rd ← Operand.register .riscv rd
    return IType.pack { imm, rs1, funct3, rd, opcode := opLoad }
  | .jumpLinkRegister => do
    let (rd, rs1, offset) ← jumpOperands ops
    let imm ← immediate12 offset
    return IType.pack { imm, rs1, rd, opcode := opJalr }
  | .store funct3 => do
    let (rs2, token) ← Operand.two "rs2, off(rs1)".toList ops
    let (offset, rs1) ← Operand.memory .riscv token
    let imm ← immediate12 offset
    let rs2 ← Operand.register .riscv rs2
    return SType.pack { imm, rs2, rs1, funct3, opcode := opStore }
  | .branch funct3 => do
    let (rs1, rs2, token) ← Operand.three "rs1, rs2, target".toList ops
    let imm ← pcRelative labels address 13 token
    let rs2 ← Operand.register .riscv rs2
    let rs1 ← Operand.register .riscv rs1
    return BType.pack { imm, rs2, rs1, funct3, opcode := opBranch }
  | .upper opcode => do
    let (rd, token) ← Operand.two "rd, imm20".toList ops
    let value ← Operand.immediate token
    let imm ← Operand.unsignedField value 20 "upper immediate".toList
    let rd ← Operand.register .riscv rd
    return UType.pack { imm, rd, opcode }
  | .jumpLink =>
    match ops with
    | [token] => do
      let imm ← pcRelative labels address 21 token
      return JType.pack { imm, rd := Arch.riscv.linkRegister, opcode := opJal }
    | [rd, token] => do
      let rd ← Operand.register .riscv rd
      let imm ← pcRelative labels address 21 token
      return JType.pack { imm, rd, opcode := opJal }
    | _ => Operand.wrongShape ["rd, target".toList, "target".toList]
  | .reserved => throw (.unsupportedFormat mnemonic)

end RiscV

end RiscAsm
