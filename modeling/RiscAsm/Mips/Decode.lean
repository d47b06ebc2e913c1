import RiscAsm.Mips.Format
import RiscAsm.Mips.Layout
import RiscAsm.Register

namespace RiscAsm

namespace Mips

open Word (bits)

/-- Whether the opcode fields of a word are those of a format. Fields that a format leaves at zero
are not looked at. -/
def Format.describes (format : Format) (word : Word) : Bool :=
  match format with
  | .alu funct | .shift funct | .jumpRegister funct | .jumpLinkRegister funct =>
    opcodeOf word == 0 && bits word 5 0 == funct
  | .aluImmediate opcode _ | .loadUpper opcode | .memory opcode | .branch opcode | .jump opcode =>
    opcodeOf word == opcode
  | .branchZero opcode rt => opcodeOf word == opcode && bits word 20 16 == rt
  | .reserved => false

/-- The address that a branch at an address goes to. -/
def branchTarget (address : Word) (i : IType) : Word := address + 4 + BitVec.ofInt 32 (4 * i.signedImm)

/-- The operands of a word at an address as the assembler reads them; targets are absolute. -/
def operandTexts (word address : Word) (format : Format) : List Text :=
  let register := Arch.mips.registerName
  let r := RType.unpack word
  let i := IType.unpack word
  match format with
  | .alu _ => [register r.rd, register r.rs, register r.rt]
  | .shift _ => [register r.rd, register r.rt, Numeral.decimal r.shamt]
  | .jumpRegister _ => [register r.rs]
  | .jumpLinkRegister _ =>
    if r.rd = Arch.mips.linkRegister then [register r.rs] else [register r.rd, register r.rs]
  | .aluImmediate _ signed =>
    [register i.rt, register i.rs,
      if signed then Numeral.signed i.signedImm else Numeral.hex i.imm]
  | .loadUpper _ => [register i.rt, Numeral.hex i.imm]
  | .memory _ =>
    [register i.rt, Numeral.signed i.signedImm ++ '(' :: register i.rs ++ [')']]
  | .branch _ => [register i.rs, register i.rt, Numeral.hex (branchTarget address i).toNat]
  | .branchZero _ _ => [register i.rs, Numeral.hex (branchTarget address i).toNat]
  | .jump _ => [Numeral.hex (4 * (JType.unpack word).target)]
  | .reserved => []

end Mips

end RiscAsm
