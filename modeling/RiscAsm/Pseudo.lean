import RiscAsm.Operand
import RiscAsm.SourceLine

namespace RiscAsm

/-- Mnemonics that stand for one or two other instructions. -/
inductive Pseudo where
  | nop
  | li
  | mv
  | not
  | neg
  | j
  deriving DecidableEq

namespace Pseudo

def mnemonic : Pseudo → Text
  | nop => "nop".toList
  | li => "li".toList
  | mv => "mv".toList
  | not => "not".toList
  | neg => "neg".toList
  | j => "j".toList

/-- MIPS has a jump of its own, RISC-V only the pseudo one. -/
def available : Arch → List Pseudo
  | .mips => [nop, li, mv, not, neg]
  | .riscv => [nop, li, mv, not, neg, j]

def ofMnemonic? (arch : Arch) (mnemonic : Text) : Option Pseudo :=
  (available arch).find? fun pseudo => pseudo.mnemonic == mnemonic

def statement (mnemonic : String) (operands : List Text) : Statement :=
  ⟨mnemonic.toList, ", ".toList.intercalate operands⟩

/-- A constant of 32 bits may be given as a signed or as an unsigned number. -/
def isWordConstant (value : Int) : Bool := -0x80000000 ≤ value && value ≤ 0xffffffff

/-- A constant of 16 bits is added to zero; any other is built from its upper half and, if that is
not zero, its lower half. -/
def loadMips (rd : Text) (value : Int) : List Statement :=
  let word := BitVec.ofInt 32 value
  let upper := statement "lui" [rd, Numeral.hex (Word.bits word 31 16)]
  let lower := statement "ori" [rd, rd, Numeral.hex (Word.bits word 15 0)]
  if Word.signExtend word 16 = value then
    [statement "addi" [rd, Arch.mips.zeroRegister, Numeral.signed value]]
  else if Word.bits word 15 0 = 0 then [upper]
  else [upper, lower]

/-- The lower twelve bits are added as a signed number, so the upper twenty are those of the rest. -/
def loadRiscV (rd : Text) (value : Int) : List Statement :=
  let lower := Word.signExtend (BitVec.ofInt 32 value) 12
  let upper := Word.bits (BitVec.ofInt 32 (value - lower)) 31 12
  [statement "lui" [rd, Numeral.hex upper], statement "addi" [rd, rd, Numeral.signed lower]]

def load (arch : Arch) (rd : Text) (value : Int) : List Statement :=
  match arch with
  | .mips => loadMips rd value
  | .riscv => loadRiscV rd value

def rewrite (arch : Arch) (pseudo : Pseudo) (text : Text) : Except Fault (List Statement) :=
  let ops := Operand.split text
  let zero := arch.zeroRegister
  match pseudo with
  | nop => do
    Operand.expectCount 0 "nop".toList ops
    return [statement "addi" [zero, zero, "0".toList]]
  | li => do
    let (rd, token) ← Operand.two "li rd, imm".toList ops
    let value ← Operand.immediate token
    if isWordConstant value then return load arch rd value
    else throw (.invalidOperand (.notWordConstant value))
  | mv => do
    let (rd, rs) ← Operand.two "mv rd, rs".toList ops
    return [statement "addi" [rd, rs, "0".toList]]
  | not => do
    let (rd, rs) ← Operand.two "not rd, rs".toList ops
    match arch with
    | .mips => return [statement "nor" [rd, rs, zero]]
    | .riscv => return [statement "xori" [rd, rs, "-1".toList]]
  | neg => do
    let (rd, rs) ← Operand.two "neg rd, rs".toList ops
    return [statement "sub" [rd, zero, rs]]
  | j => do
    let target ← Operand.one "j target".toList ops
    return [statement "jal" [zero, target]]

end Pseudo

end RiscAsm
