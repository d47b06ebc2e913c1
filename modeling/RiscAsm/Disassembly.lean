import RiscAsm.Format
import RiscAsm.Mips.Decode
import RiscAsm.RiscV.Decode
import RiscAsm.SourceLine

namespace RiscAsm

def Format.describes (format : Format) (word : Word) : Bool :=
  match format with
  | .mips format => format.describes word
  | .riscv format => format.describes word

def Format.operandTexts (format : Format) (word address : Word) : List Text :=
  match format with
  | .mips format => Mips.operandTexts word address format
  | .riscv format => RiscV.operandTexts word address format

/-- The first mnemonic of the instruction set whose format describes a word. -/
def Arch.decode? (arch : Arch) (word : Word) : Option (Text × Format) :=
  arch.formats.find? fun entry => entry.2.describes word

def Arch.disassemble? (arch : Arch) (word address : Word) : Option Statement :=
  (arch.decode? word).map fun entry =>
    ⟨entry.1, ", ".toList.intercalate (entry.2.operandTexts word address)⟩

structure Row where
  address : Word
  word : Word
  statement : Option Statement

namespace Row

def ofWords (arch : Arch) (base : Word) (words : List Word) : List Row :=
  words.zipIdx.map fun numbered =>
    let address := base + BitVec.ofNat 32 (4 * numbered.2)
    ⟨address, numbered.1, arch.disassemble? numbered.1 address⟩

/-- A word that is no instruction is written as data. -/
def text (row : Row) : Text :=
  let word := Numeral.hex8 row.word.toNat
  let shown := match row.statement with
    | some statement => statement.text
    | none => ".word 0x".toList ++ word
  "0x".toList ++ Numeral.hex8 row.address.toNat ++ ": ".toList ++ word ++ "  ".toList ++ shown

end Row

end RiscAsm
