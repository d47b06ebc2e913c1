import RiscAsm.Disassembly
import RiscAsm.Instr
import RiscAsm.Proofs.MipsMeaning
import RiscAsm.Proofs.RiscVMeaning

namespace RiscAsm

open Text

/-- The field values that tell a format apart: an opcode and at most two further fields. -/
structure Signature where
  opcode : Nat
  minor : Option Nat := none
  extra : Option Nat := none
  deriving DecidableEq

namespace Signature

/-- Whether the fields of a word have the values that a signature asks for. -/
def Admits (s : Signature) (opcode minor extra : Nat) : Prop :=
  opcode = s.opcode ∧ (∀ value ∈ s.minor, minor = value) ∧ ∀ value ∈ s.extra, extra = value

/-- Whether no field tells two signatures apart. -/
def overlaps (a b : Signature) : Bool :=
  a.opcode == b.opcode && (a.minor.isNone || b.minor.isNone || a.minor == b.minor) &&
    (a.extra.isNone || b.extra.isNone || a.extra == b.extra)

theorem Admits.overlaps {a b : Signature} {opcode minor extra : Nat} (left : a.Admits opcode minor extra)
    (right : b.Admits opcode minor extra) : a.overlaps b := by
  obtain ⟨opcodeA, minorA, extraA⟩ := left
  obtain ⟨opcodeB, minorB, extraB⟩ := right
  have agree : ∀ (x y : Option Nat) (n : Nat), (∀ value ∈ x, n = value) → (∀ value ∈ y, n = value) →
      (x.isNone || y.isNone || x == y) = true := by
    intro x y n ofX ofY
    cases x with
    | none => rfl
    | some v =>
      cases y with
      | none => simp
      | some w => simp [← ofX v rfl, ← ofY w rfl]
  simp only [Signature.overlaps, ← opcodeA, ← opcodeB, beq_self_eq_true, Bool.true_and, Bool.and_eq_true]
  exact ⟨agree _ _ _ minorA minorB, agree _ _ _ extraA extraB⟩

end Signature

namespace Format

/-- The signature of a format; a reserved mnemonic has none. -/
def signature? : Format → Option Signature
  | .mips (.alu funct) | .mips (.shift funct) | .mips (.jumpRegister funct) | .mips (.jumpLinkRegister funct) =>
    some { opcode := 0, minor := some funct }
  | .mips (.aluImmediate opcode _) | .mips (.loadUpper opcode) | .mips (.memory opcode) | .mips (.branch opcode)
  | .mips (.jump opcode) => some { opcode }
  | .mips (.branchZero opcode rt) => some { opcode, extra := some rt }
  | .riscv (.register funct3 funct7) => some { opcode := RiscV.opRegister, minor := some funct3, extra := some funct7 }
  | .riscv (.aluImmediate funct3) => some { opcode := RiscV.opImmediate, minor := some funct3 }
  | .riscv (.load funct3) => some { opcode := RiscV.opLoad, minor := some funct3 }
  | .riscv .jumpLinkRegister => some { opcode := RiscV.opJalr, minor := some 0 }
  | .riscv (.store funct3) => some { opcode := RiscV.opStore, minor := some funct3 }
  | .riscv (.branch funct3) => some { opcode := RiscV.opBranch, minor := some funct3 }
  | .riscv (.upper opcode) => some { opcode }
  | .riscv .jumpLink => some { opcode := RiscV.opJal }
  | .mips .reserved | .riscv .reserved => none

/-- A format describes exactly the words whose fields its signature admits. -/
theorem mips_describes_iff {format : Mips.Format} {word : Word} :
    (mips format).describes word ↔ ∃ s, (mips format).signature? = some s ∧
      s.Admits (Mips.opcodeOf word) (Word.bits word 5 0) (Word.bits word 20 16) := by
  cases format <;> simp [describes, Mips.Format.describes, signature?, Signature.Admits]

theorem riscv_describes_iff {format : RiscV.Format} {word : Word} :
    (riscv format).describes word ↔ ∃ s, (riscv format).signature? = some s ∧
      s.Admits (RiscV.opcodeOf word) (Word.bits word 14 12) (Word.bits word 31 25) := by
  cases format <;> simp [describes, RiscV.Format.describes, signature?, Signature.Admits, and_assoc]

def overlaps (a b : Format) : Bool :=
  match a.signature?, b.signature? with
  | some s, some t => s.overlaps t
  | _, _ => false

def arch : Format → Arch
  | .mips _ => .mips
  | .riscv _ => .riscv

theorem overlaps_of_describes {a b : Format} {word : Word} (same : a.arch = b.arch) (first : a.describes word)
    (second : b.describes word) : a.overlaps b := by
  cases a with
  | mips f =>
    cases b with
    | mips g =>
      obtain ⟨s, ofA, admitsA⟩ := mips_describes_iff.mp first
      obtain ⟨t, ofB, admitsB⟩ := mips_describes_iff.mp second
      simp only [overlaps, ofA, ofB, admitsA.overlaps admitsB]
    | riscv g => cases same
  | riscv f =>
    cases b with
    | mips g => cases same
    | riscv g =>
      obtain ⟨s, ofA, admitsA⟩ := riscv_describes_iff.mp first
      obtain ⟨t, ofB, admitsB⟩ := riscv_describes_iff.mp second
      simp only [overlaps, ofA, ofB, admitsA.overlaps admitsB]

end Format

namespace Arch

variable {arch : Arch} {entry other : Text × Format} {mnemonic : Text} {format : Format} {word : Word}

theorem arch_of_mem_formats (listed : entry ∈ arch.formats) : entry.2.arch = arch := by
  cases arch with
  | mips =>
    obtain ⟨e, _, rfl⟩ := List.mem_map.mp listed
    rfl
  | riscv =>
    obtain ⟨e, _, rfl⟩ := List.mem_map.mp listed
    rfl

theorem eq_of_overlaps (listed : entry ∈ arch.formats) (listedToo : other ∈ arch.formats)
    (overlap : entry.2.overlaps other.2) : entry = other := by
  have all : arch.formats.all (fun a => arch.formats.all fun b => !a.2.overlaps b.2 || a == b) := by
    cases arch <;> decide +kernel
  have pair := List.all_eq_true.mp (List.all_eq_true.mp all entry listed) other listedToo
  simpa [overlap] using pair

/-- Decoding finds the entry that describes a word, wherever it stands in the table. -/
theorem decode?_of_describes (listed : entry ∈ arch.formats) (described : entry.2.describes word) :
    arch.decode? word = some entry := by
  cases found : arch.decode? word with
  | none => exact absurd described (by simpa using List.find?_eq_none.mp found entry listed)
  | some other =>
    unfold decode? at found
    have listedToo := List.mem_of_find?_eq_some found
    have describedToo := List.find?_some found
    -- What stands first in the table describes the word too, and no two entries overlap.
    have same := (arch_of_mem_formats listed).trans (arch_of_mem_formats listedToo).symm
    rw [eq_of_overlaps listed listedToo (Format.overlaps_of_describes same described describedToo)]

theorem nodup_mnemonics (arch : Arch) : (arch.formats.map (·.1)).Nodup := by
  cases arch <;> decide +kernel

theorem format?_eq_some : arch.format? mnemonic = some format ↔ (mnemonic, format) ∈ arch.formats := by
  simp only [format?, Option.map_eq_some_iff, find?_key_eq_some_iff (nodup_mnemonics arch)]
  constructor
  · rintro ⟨entry, ⟨listed, rfl⟩, rfl⟩
    exact listed
  · intro listed
    exact ⟨(mnemonic, format), ⟨listed, rfl⟩, rfl⟩

/-- A listed mnemonic is a plain word in lower case that stands for itself. -/
theorem mnemonic_of_mem_formats (listed : entry ∈ arch.formats) :
    Plain entry.1 ∧ entry.1.map Char.toLower = entry.1 ∧ Pseudo.ofMnemonic? arch entry.1 = none := by
  have all : arch.formats.all (fun entry => (!entry.1.isEmpty && entry.1.all isPlain) &&
      (entry.1.map Char.toLower == entry.1 && (Pseudo.ofMnemonic? arch entry.1).isNone)) := by
    cases arch <;> decide +kernel
  simpa [Plain] using List.all_eq_true.mp all entry listed

end Arch

namespace Statement

variable {arch : Arch} {line : Nat} {s : Statement} {format : Format}

theorem instr_of_format? (found : arch.format? s.mnemonic = some format) (line : Nat) (origin : Option Pseudo) :
    s.instr arch line origin = .ok ⟨s.mnemonic, s.operands, format, line, origin⟩ := by
  unfold instr
  rw [found]

theorem expand_of_format? (noPseudo : Pseudo.ofMnemonic? arch s.mnemonic = none)
    (found : arch.format? s.mnemonic = some format) (line : Nat) :
    s.expand arch line = .ok [⟨s.mnemonic, s.operands, format, line, none⟩] := by
  unfold expand
  rw [noPseudo]
  exact bind_eq_ok.mpr ⟨_, instr_of_format? found line none, rfl⟩

theorem expand_of_rewrite {pseudo : Pseudo} {statements : List Statement} {instrs : List Instr}
    (known : Pseudo.ofMnemonic? arch s.mnemonic = some pseudo)
    (rewritten : pseudo.rewrite arch s.operands = .ok statements)
    (each : List.Forall₂ (fun direct i => instr arch line (some pseudo) direct = .ok i) statements instrs) :
    s.expand arch line = .ok instrs := by
  unfold expand
  rw [known]
  exact bind_eq_ok.mpr ⟨statements, rewritten, mapM_eq_ok_iff.mpr each⟩

end Statement

theorem Mips.inRange_of_mem {entry : Text × Mips.Format} (listed : entry ∈ Mips.formats) : entry.2.InRange := by
  have all : ∀ entry ∈ Mips.formats, entry.2.InRange := by simp [Mips.formats, Mips.Format.InRange]
  exact all entry listed

theorem RiscV.inRange_of_mem {entry : Text × RiscV.Format} (listed : entry ∈ RiscV.formats) : entry.2.InRange := by
  have all : ∀ entry ∈ RiscV.formats, entry.2.InRange := by
    simp [RiscV.formats, RiscV.Format.InRange, opLui, opAuipc]
  exact all entry listed

end RiscAsm
