import RiscAsm.LabelTable
import RiscAsm.Mips.Format
import RiscAsm.Mips.Layout
import RiscAsm.Operand

namespace RiscAsm

namespace Mips

/-- Targets of branches and jumps are addresses of words. -/
def alignedTarget (labels : LabelTable) (token : Text) : Except Fault Word := do
  let address ← labels.target token
  if address.toNat % 4 = 0 then return address
  else throw (.invalidOperand (.unalignedTarget address))

/-- The distance in words from the instruction after a branch to its target. -/
def branchOffset (labels : LabelTable) (address : Word) (token : Text) : Except Fault Nat := do
  let target ← alignedTarget labels token
  let offset : Int := (target.toNat / 4 : Nat) - ((address.toNat / 4 : Nat) + 1)
  Operand.signedField offset 16 "branch offset".toList

/-- The word of an instruction at an address. Where several operands are at fault, the immediate or
target is reported first. -/
def encode (labels : LabelTable) (address : Word) (mnemonic : Text) (ops : List Text) :
    Format → Except Fault Word
  | .alu funct => do
    let (rd, rs, rt) ← Operand.three "rd, rs, rt".toList ops
    let rd ← Operand.register .mips rd
    let rs ← Operand.register .mips rs
    let rt ← Operand.register .mips rt
    return RType.pack { rs, rt, rd, funct }
  | .shift funct => do
    let (rd, rt, amount) ← Operand.three "rd, rt, shamt".toList ops
    let amount ← Operand.immediate amount
    let shamt ← Operand.unsignedField amount 5 "shift amount".toList
    let rd ← Operand.register .mips rd
    let rt ← Operand.register .mips rt
    return RType.pack { rt, rd, shamt, funct }
  | .jumpRegister funct => do
    let rs ← Operand.one "rs".toList ops
    let rs ← Operand.register .mips rs
    return RType.pack { rs, funct }
  | .jumpLinkRegister funct =>
    match ops with
    | [rs] => do
      let rs ← Operand.register .mips rs
      return RType.pack { rs, rd := Arch.mips.linkRegister, funct }
    | [rd, rs] => do
      let rd ← Operand.register .mips rd
      let rs ← Operand.register .mips rs
      return RType.pack { rs, rd, funct }
    | _ => Operand.wrongShape ["rd, rs".toList, "rs".toList]
  | .aluImmediate opcode signed => do
    let (rt, rs, token) ← Operand.three "rt, rs, imm".toList ops
    let value ← Operand.immediate token
    let imm ←
      if signed then Operand.signedField value 16 "immediate".toList
      else Operand.unsignedField value 16 "immediate".toList
    let rs ← Operand.register .mips rs
    let rt ← Operand.register .mips rt
    return IType.pack { opcode, rs, rt, imm }
  | .loadUpper opcode => do
    let (rt, token) ← Operand.two "rt, imm".toList ops
    let value ← Operand.immediate token
    let imm ← Operand.unsignedField value 16 "immediate".toList
    let rt ← Operand.register .mips rt
    return IType.pack { opcode, rt, imm }
  | .memory opcode => do
    let (rt, token) ← Operand.two "rt, off(rs)".toList ops
    let (offset, rs) ← Operand.memory .mips token
    let imm ← Operand.signedField offset 16 "offset".toList
    let rt ← Operand.register .mips rt
    return IType.pack { opcode, rs, rt, imm }
  | .branch opcode => do
    let (rs, rt, token) ← Operand.three "rs, rt, target".toList ops
    let imm ← branchOffset labels address token
    let rs ← Operand.register .mips rs
    let rt ← Operand.register .mips rt
    return IType.pack { opcode, rs, rt, imm }
  | .branchZero opcode rt => do
    let (rs, token) ← Operand.two "rs, target".toList ops
    let imm ← branchOffset labels address token
    let rs ← Operand.register .mips rs
    return IType.pack { opcode, rs, rt, imm }
  | .jump opcode => do
    let token ← Operand.one "target".toList ops
    let address ← alignedTarget labels token
    let target ← Operand.unsignedField (address.toNat / 4 : Nat) 26 "jump target word index".toList
    return JType.pack { opcode, target }
  | .reserved => throw (.unsupportedFormat mnemonic)

end Mips

end RiscAsm
