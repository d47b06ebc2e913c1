import RiscAsm.Arch
import RiscAsm.Mips.Format
import RiscAsm.RiscV.Format

namespace RiscAsm

inductive Format where
  | mips (format : Mips.Format)
  | riscv (format : RiscV.Format)
  deriving DecidableEq

namespace Arch

def formats : Arch → List (Text × Format)
  | mips => Mips.formats.map fun entry => (entry.1, .mips entry.2)
  | riscv => RiscV.formats.map fun entry => (entry.1, .riscv entry.2)

/-- Mnemonics are matched exactly, in lower case. -/
def format? (arch : Arch) (mnemonic : Text) : Option Format :=
  (arch.formats.find? (fun entry => entry.1 == mnemonic)).map (·.2)

end Arch

end RiscAsm
