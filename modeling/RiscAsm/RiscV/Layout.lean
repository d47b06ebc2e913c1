import RiscAsm.Word

namespace RiscAsm

namespace RiscV

open Word (bits)

structure RType where
  funct7 : Nat := 0
  rs2 : Nat := 0
  rs1 : Nat := 0
  funct3 : Nat := 0
  rd : Nat := 0
  opcode : Nat := 0
  deriving DecidableEq

structure IType where
  imm : Int := 0
  rs1 : Nat := 0
  funct3 : Nat := 0
  rd : Nat := 0
  opcode : Nat := 0
  deriving DecidableEq

/-- The fields of a store, whose signed 12-bit offset lies in two pieces. -/
structure SType where
  imm : Int := 0
  rs2 : Nat := 0
  rs1 : Nat := 0
  funct3 : Nat := 0
  opcode : Nat := 0
  deriving DecidableEq

/-- The fields of a branch, whose even signed 13-bit offset lies in four pieces. -/
structure BType where
  imm : Int := 0
  rs2 : Nat := 0
  rs1 : Nat := 0
  funct3 : Nat := 0
  opcode : Nat := 0
  deriving DecidableEq

structure UType where
  imm : Nat := 0
  rd : Nat := 0
  opcode : Nat := 0
  deriving DecidableEq

/-- The fields of a jump, whose even signed 21-bit offset lies in four pieces. -/
structure JType where
  imm : Int := 0
  rd : Nat := 0
  opcode : Nat := 0
  deriving DecidableEq

def opcodeOf (word : Word) : Nat := bits word 6 0

/-- Fields stand from the highest bits down, each cut to its width. -/
def RType.pack (f : RType) : Word :=
  BitVec.ofNat 7 f.funct7 ++ BitVec.ofNat 5 f.rs2 ++ BitVec.ofNat 5 f.rs1 ++ BitVec.ofNat 3 f.funct3 ++
    BitVec.ofNat 5 f.rd ++ BitVec.ofNat 7 f.opcode

def RType.unpack (word : Word) : RType where
  funct7 := bits word 31 25
  rs2 := bits word 24 20
  rs1 := bits word 19 15
  funct3 := bits word 14 12
  rd := bits word 11 7
  opcode := opcodeOf word

def IType.pack (f : IType) : Word :=
  BitVec.ofInt 12 f.imm ++ BitVec.ofNat 5 f.rs1 ++ BitVec.ofNat 3 f.funct3 ++ BitVec.ofNat 5 f.rd ++
    BitVec.ofNat 7 f.opcode

def IType.unpack (word : Word) : IType where
  imm := (word.extractLsb' 20 12).toInt
  rs1 := bits word 19 15
  funct3 := bits word 14 12
  rd := bits word 11 7
  opcode := opcodeOf word

/-- The offset stands as bits 11 to 5 at the top and bits 4 to 0 in the place of `rd`. -/
def SType.pack (f : SType) : Word :=
  let imm := BitVec.ofInt 12 f.imm
  imm.extractLsb' 5 7 ++ BitVec.ofNat 5 f.rs2 ++ BitVec.ofNat 5 f.rs1 ++ BitVec.ofNat 3 f.funct3 ++
    imm.extractLsb' 0 5 ++ BitVec.ofNat 7 f.opcode

def SType.unpack (word : Word) : SType where
  imm := (word.extractLsb' 25 7 ++ word.extractLsb' 7 5).toInt
  rs2 := bits word 24 20
  rs1 := bits word 19 15
  funct3 := bits word 14 12
  opcode := opcodeOf word

/-- The offset stands as bits 12 and 10 to 5 at the top and bits 4 to 1 and 11 in the place of `rd`. -/
def BType.pack (f : BType) : Word :=
  let imm := BitVec.ofInt 13 f.imm
  imm.extractLsb' 12 1 ++ imm.extractLsb' 5 6 ++ BitVec.ofNat 5 f.rs2 ++ BitVec.ofNat 5 f.rs1 ++
    BitVec.ofNat 3 f.funct3 ++ imm.extractLsb' 1 4 ++ imm.extractLsb' 11 1 ++ BitVec.ofNat 7 f.opcode

def BType.unpack (word : Word) : BType where
  imm :=
    (word.extractLsb' 31 1 ++ word.extractLsb' 7 1 ++ word.extractLsb' 25 6 ++ word.extractLsb' 8 4 ++ 0#1).toInt
  rs2 := bits word 24 20
  rs1 := bits word 19 15
  funct3 := bits word 14 12
  opcode := opcodeOf word

def UType.pack (f : UType) : Word := BitVec.ofNat 20 f.imm ++ BitVec.ofNat 5 f.rd ++ BitVec.ofNat 7 f.opcode

def UType.unpack (word : Word) : UType where
  imm := bits word 31 12
  rd := bits word 11 7
  opcode := opcodeOf word

/-- The offset stands as bits 20, 10 to 1, 11, and 19 to 12. -/
def JType.pack (f : JType) : Word :=
  let imm := BitVec.ofInt 21 f.imm
  imm.extractLsb' 20 1 ++ imm.extractLsb' 1 10 ++ imm.extractLsb' 11 1 ++ imm.extractLsb' 12 8 ++
    BitVec.ofNat 5 f.rd ++ BitVec.ofNat 7 f.opcode

def JType.unpack (word : Word) : JType where
  imm :=
    (word.extractLsb' 31 1 ++ word.extractLsb' 12 8 ++ word.extractLsb' 20 1 ++ word.extractLsb' 21 10 ++ 0#1).toInt
  rd := bits word 11 7
  opcode := opcodeOf word

end RiscV

end RiscAsm
