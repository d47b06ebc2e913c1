import RiscAsm.Numeral

namespace RiscAsm

/-- The two instruction sets: the integer parts of MIPS32 and of RV32. -/
inductive Arch where
  | mips
  | riscv
  deriving DecidableEq

namespace Arch

def title : Arch → Text
  | mips => "MIPS".toList
  | riscv => "RISC-V".toList

def keyword : Arch → Text
  | mips => "mips".toList
  | riscv => "riscv".toList

def ofKeyword? (s : Text) : Option Arch := [mips, riscv].find? (fun arch => arch.keyword == s)

end Arch

end RiscAsm
