import RiscAsm.Assembly
import RiscAsm.Proofs.DecodingTable
import RiscAsm.Proofs.SourceText

namespace RiscAsm

open Text

namespace Format

variable {format : Format} {labels : LabelTable} {ops : List Text} {word address : Word} {m : Meaning}

/-- What the operands of an instruction denote. -/
def read? (labels : LabelTable) (ops : List Text) : Format → Option Meaning
  | .mips format => format.read? labels ops
  | .riscv format => format.read? labels ops

/-- The word at an address whose operands have a meaning, if that fits the fields of the format. -/
def word? (address : Word) (m : Meaning) : Format → Option Word
  | .mips format => format.word? address m
  | .riscv format => format.word? address m

/-- What the operands of a word at an address denote. -/
def meaning (word address : Word) : Format → Meaning
  | .mips format => format.meaning word address
  | .riscv format => format.meaning word address

theorem read?_lt (read : format.read? labels ops = some m) : ∀ n ∈ m.registers, n < 32 := by
  cases format with
  | mips f => exact Mips.Format.read?_lt read
  | riscv f => exact RiscV.Format.read?_lt read

theorem read?_operandTexts (named : labels.Named) (described : format.describes word) :
    format.read? labels (format.operandTexts word address) = some (format.meaning word address) := by
  cases format with
  | mips f => exact Mips.Format.read?_operandTexts named described
  | riscv f => exact RiscV.Format.read?_operandTexts named described

theorem describes_of_word? {arch : Arch} {mnemonic : Text} (listed : (mnemonic, format) ∈ arch.formats)
    (aligned : address.toNat % 4 = 0) (small : ∀ n ∈ m.registers, n < 32)
    (packed : format.word? address m = some word) :
    format.describes word ∧ format.meaning word address = m := by
  cases arch with
  | mips =>
    obtain ⟨entry, inTable, same⟩ := List.mem_map.mp listed
    cases same
    exact Mips.Format.describes_of_word? (Mips.inRange_of_mem inTable) aligned small packed
  | riscv =>
    obtain ⟨entry, inTable, same⟩ := List.mem_map.mp listed
    cases same
    exact RiscV.Format.describes_of_word? (RiscV.inRange_of_mem inTable) small packed

theorem plain_operandTexts (format : Format) (word address : Word) :
    ∀ token ∈ format.operandTexts word address, Plain token := by
  cases format with
  | mips f => exact Mips.plain_operandTexts word address f
  | riscv f => exact RiscV.plain_operandTexts word address f

end Format

/-- An instruction of the table is encoded if its operands have a meaning that fits its fields. -/
theorem PlacedInstr.encode_eq_ok_iff {arch : Arch} {labels : LabelTable} {instr : PlacedInstr} {word : Word}
    (own : instr.format.arch = arch) :
    instr.encode arch labels = .ok word ↔
      ∃ m, instr.format.read? labels (Operand.split instr.operands) = some m ∧
        instr.format.word? instr.address m = some word := by
  unfold encode
  subst own
  cases instr.format with
  | mips f => exact Mips.encode_eq_ok_iff
  | riscv f => exact RiscV.encode_eq_ok_iff

section

variable {arch : Arch} {labels : LabelTable} {instr : PlacedInstr} {mnemonic : Text} {format : Format} {word : Word}

/-- An encoded instruction is described by its format, and its word holds what its operands denote. -/
theorem PlacedInstr.describes_of_encode (listed : (instr.mnemonic, instr.format) ∈ arch.formats)
    (aligned : instr.address.toNat % 4 = 0) (encoded : instr.encode arch labels = .ok word) :
    instr.format.describes word ∧
      instr.format.read? labels (Operand.split instr.operands) = some (instr.format.meaning word instr.address) ∧
      instr.format.word? instr.address (instr.format.meaning word instr.address) = some word := by
  obtain ⟨m, read, packed⟩ := (encode_eq_ok_iff (Arch.arch_of_mem_formats listed)).mp encoded
  obtain ⟨described, same⟩ := Format.describes_of_word? listed aligned (Format.read?_lt read) packed
  exact ⟨described, by rw [read, same], by rw [same, packed]⟩

theorem Arch.disassemble?_of_describes (listed : (mnemonic, format) ∈ arch.formats) (described : format.describes word)
    (address : Word) :
    arch.disassemble? word address = some ⟨mnemonic, printed (format.operandTexts word address)⟩ := by
  unfold disassemble?
  rw [decode?_of_describes listed described]
  rfl

theorem Arch.writable_operandTexts (listed : (mnemonic, format) ∈ arch.formats) (word address : Word) :
    Statement.Writable ⟨mnemonic, printed (format.operandTexts word address)⟩ := by
  obtain ⟨plain, lower, _⟩ := mnemonic_of_mem_formats listed
  exact Statement.writable_printed plain lower (format.plain_operandTexts word address)

/-- Decoding undoes encoding: the word of an instruction decodes to its own entry of the table, and the operands
printed for it denote what the operands it was written with denote, whatever labels there are. -/
theorem PlacedInstr.decodes_of_encode (listed : (instr.mnemonic, instr.format) ∈ arch.formats)
    (aligned : instr.address.toNat % 4 = 0) (encoded : instr.encode arch labels = .ok word) :
    arch.decode? word = some (instr.mnemonic, instr.format) ∧ ∃ operands,
      arch.disassemble? word instr.address = some ⟨instr.mnemonic, operands⟩ ∧
      SourceLine.read (Statement.text ⟨instr.mnemonic, operands⟩) = .ok ⟨none, some ⟨instr.mnemonic, operands⟩⟩ ∧
      ∃ m, instr.format.read? labels (Operand.split instr.operands) = some m ∧
        ∀ other : LabelTable, other.Named → instr.format.read? other (Operand.split operands) = some m := by
  obtain ⟨described, read, _⟩ := describes_of_encode listed aligned encoded
  refine ⟨Arch.decode?_of_describes listed described, printed (instr.format.operandTexts word instr.address),
    Arch.disassemble?_of_describes listed described instr.address,
    (Arch.writable_operandTexts listed word instr.address).read_text, _, read, ?_⟩
  intro other named
  rw [split_printed (instr.format.plain_operandTexts word instr.address)]
  exact Format.read?_operandTexts named described

/-- A jump that names only its target links into the default register. -/
theorem PlacedInstr.decodes_of_encode_jump :
    let jump : PlacedInstr := ⟨⟨"jal".toList, "loop".toList, .riscv .jumpLink, 3, none⟩, 8#32⟩
    let loop : LabelTable := { labels := [⟨"loop".toList, 0#32, 1⟩] }
    jump.encode .riscv loop = .ok 0xff9ff0ef#32 ∧
      Arch.riscv.decode? 0xff9ff0ef#32 = some ("jal".toList, .riscv .jumpLink) := by
  have encoded : PlacedInstr.encode .riscv { labels := [⟨"loop".toList, 0#32, 1⟩] }
      ⟨⟨"jal".toList, "loop".toList, .riscv .jumpLink, 3, none⟩, 8#32⟩ = .ok 0xff9ff0ef#32 := by decide +kernel
  exact ⟨encoded, (decodes_of_encode (by decide) (by decide) encoded).1⟩

end

end RiscAsm
