import RiscAsm.Format
import RiscAsm.Pseudo

namespace RiscAsm

/-- An instruction with its format, its source line and the pseudo instruction it came from. -/
structure Instr where
  mnemonic : Text
  operands : Text
  format : Format
  line : Nat
  origin : Option Pseudo
  deriving DecidableEq

namespace Statement

def instr (arch : Arch) (line : Nat) (origin : Option Pseudo) (s : Statement) : Except Fault Instr :=
  match arch.format? s.mnemonic with
  | some format => .ok ⟨s.mnemonic, s.operands, format, line, origin⟩
  | none => .error (.unknownMnemonic s.mnemonic)

/-- The instructions of a statement, of which a pseudo instruction may have two. -/
def expand (arch : Arch) (line : Nat) (s : Statement) : Except Fault (List Instr) :=
  match Pseudo.ofMnemonic? arch s.mnemonic with
  | some pseudo => do
    let statements ← pseudo.rewrite arch s.operands
    statements.mapM (instr arch line (some pseudo))
  | none => do
    let direct ← s.instr arch line none
    return [direct]

end Statement

end RiscAsm
