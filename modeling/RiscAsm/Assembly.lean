import RiscAsm.Mips.Encode
import RiscAsm.Program
import RiscAsm.RiscV.Encode

namespace RiscAsm

structure Assembly where
  program : Program
  words : List Word

/-- The word of one instruction. A format of the other instruction set has no encoding. -/
def PlacedInstr.encode (arch : Arch) (labels : LabelTable) (instr : PlacedInstr) : Except Fault Word :=
  let ops := Operand.split instr.operands
  match arch, instr.format with
  | .mips, .mips format => Mips.encode labels instr.address instr.mnemonic ops format
  | .riscv, .riscv format => RiscV.encode labels instr.address instr.mnemonic ops format
  | _, _ => .error (.unsupportedFormat instr.mnemonic)

/-- A fault of an instruction is reported with its statement after expansion. -/
def PlacedInstr.word (arch : Arch) (labels : LabelTable) (instr : PlacedInstr) : Except Diagnostic Word :=
  match instr.encode arch labels with
  | .ok word => .ok word
  | .error fault => .error ⟨instr.line, instr.mnemonic, instr.operands, fault⟩

def Program.encode (p : Program) : Except Diagnostic (List Word) := p.instrs.mapM (PlacedInstr.word p.arch p.labels)

namespace Assembly

def ofProgram (p : Program) : Except Diagnostic Assembly := do
  let words ← p.encode
  return ⟨p, words⟩

/-- Assembles a source. Faults of lines come before repeated labels, and these before faults of encoding. -/
def ofSource (arch : Arch) (source : Text) : Except Diagnostic Assembly := do
  let expansion ← Expansion.ofSource arch source
  let program ← Program.ofExpansion expansion
  ofProgram program

end Assembly

end RiscAsm
