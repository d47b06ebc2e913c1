import RiscAsm.Word

namespace RiscAsm

namespace Mips

open Word (bits)

/-- The fields of a register instruction, whose opcode is zero. -/
structure RType where
  rs : Nat := 0
  rt : Nat := 0
  rd : Nat := 0
  shamt : Nat := 0
  funct : Nat := 0
  deriving DecidableEq

structure IType where
  opcode : Nat := 0
  rs : Nat := 0
  rt : Nat := 0
  imm : Nat := 0
  deriving DecidableEq

/-- The fields of a jump to a 26-bit word index. -/
structure JType where
  opcode : Nat := 0
  target : Nat := 0
  deriving DecidableEq

def opcodeOf (word : Word) : Nat := bits word 31 26

/-- Fields stand from the highest bits down, each cut to its width. -/
def RType.pack (f : RType) : Word :=
  0#6 ++ BitVec.ofNat 5 f.rs ++ BitVec.ofNat 5 f.rt ++ BitVec.ofNat 5 f.rd ++ BitVec.ofNat 5 f.shamt ++
    BitVec.ofNat 6 f.funct

def RType.unpack (word : Word) : RType where
  rs := bits word 25 21
  rt := bits word 20 16
  rd := bits word 15 11
  shamt := bits word 10 6
  funct := bits word 5 0

def IType.pack (f : IType) : Word :=
  BitVec.ofNat 6 f.opcode ++ BitVec.ofNat 5 f.rs ++ BitVec.ofNat 5 f.rt ++ BitVec.ofNat 16 f.imm

def IType.unpack (word : Word) : IType where
  opcode := opcodeOf word
  rs := bits word 25 21
  rt := bits word 20 16
  imm := bits word 15 0

def IType.signedImm (f : IType) : Int := Word.signExtend (BitVec.ofNat 32 f.imm) 16

def JType.pack (f : JType) : Word := BitVec.ofNat 6 f.opcode ++ BitVec.ofNat 26 f.target

def JType.unpack (word : Word) : JType where
  opcode := opcodeOf word
  target := bits word 25 0

end Mips

end RiscAsm
