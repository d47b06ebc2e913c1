import RiscAsm.Proofs.InstructionMeaning

namespace RiscAsm

/-- The contents of the registers, of which the first always holds zero. -/
structure Registers where
  read : Nat → Word
  zero : read 0 = 0

namespace Registers

/-- Writing the first register has no effect. -/
def write (s : Registers) (number : Nat) (value : Word) : Registers where
  read n := if n = number ∧ number ≠ 0 then value else s.read n
  zero := by
    split
    · omega
    · exact s.zero

theorem read_write_of_ne (s : Registers) {n number : Nat} (other : n ≠ number) (value : Word) :
    (s.write number value).read n = s.read n := by
  simp [write, other]

theorem read_write_self (s : Registers) {number : Nat} (nonzero : number ≠ 0) (value : Word) :
    (s.write number value).read number = value := by
  simp [write, nonzero]

theorem read_write_zero (s : Registers) (n : Nat) (value : Word) : (s.write 0 value).read n = s.read n := by
  simp [write]

/-- Only one register differs, and it holds a given value unless it is the first. -/
def SetsOnly (number : Nat) (value : Word) (before after : Registers) : Prop :=
  (∀ n, n ≠ number → after.read n = before.read n) ∧ (number ≠ 0 → after.read number = value)

theorem setsOnly_write (s : Registers) (number : Nat) (value : Word) : SetsOnly number value s (s.write number value) :=
  ⟨fun _ other => s.read_write_of_ne other value, fun nonzero => s.read_write_self nonzero value⟩

/-- Of two writes to one register the second counts; it may use what the first left there. -/
theorem setsOnly_write_write (s : Registers) (number : Nat) (first : Word) (next : Word → Word) :
    SetsOnly number (next first) s
      ((s.write number first).write number (next ((s.write number first).read number))) := by
  constructor
  · intro n other
    rw [read_write_of_ne _ other, read_write_of_ne _ other]
  · intro nonzero
    rw [read_write_self _ nonzero, read_write_self _ nonzero]

end Registers

namespace Mips

/-- The effect of a word on the registers, for the words that constants and copies are made with. -/
def execute (word : Word) (s : Registers) : Option Registers :=
  let r := RType.unpack word
  let i := IType.unpack word
  match opcodeOf word with
  | 0x00 =>
    match r.funct with
    | 0x22 => some (s.write r.rd (s.read r.rs - s.read r.rt))
    | 0x27 => some (s.write r.rd (~~~(s.read r.rs ||| s.read r.rt)))
    | _ => none
  | 0x08 => some (s.write i.rt (s.read i.rs + BitVec.ofInt 32 i.signedImm))
  | 0x0d => some (s.write i.rt (s.read i.rs ||| BitVec.ofNat 32 i.imm))
  | 0x0f => some (s.write i.rt (BitVec.ofNat 32 i.imm <<< 16))
  | _ => none

end Mips

namespace RiscV

def execute (word : Word) (s : Registers) : Option Registers :=
  let r := RType.unpack word
  let i := IType.unpack word
  let u := UType.unpack word
  match opcodeOf word, Word.bits word 14 12 with
  | 0x33, 0 => if r.funct7 = 0x20 then some (s.write r.rd (s.read r.rs1 - s.read r.rs2)) else none
  | 0x13, 0 => some (s.write i.rd (s.read i.rs1 + BitVec.ofInt 32 i.imm))
  | 0x13, 4 => some (s.write i.rd (s.read i.rs1 ^^^ BitVec.ofInt 32 i.imm))
  | 0x37, _ => some (s.write u.rd (BitVec.ofNat 32 u.imm <<< 12))
  | _, _ => none

end RiscV

namespace Arch

def execute : Arch → Word → Registers → Option Registers
  | mips => Mips.execute
  | riscv => RiscV.execute

def run (arch : Arch) (words : List Word) (s : Registers) : Option Registers :=
  words.foldlM (fun s word => arch.execute word s) s

end Arch

namespace Mips

variable {word : Word} {rd rs rt : Nat} {value : Int}

theorem execute_addi (described : (Format.aluImmediate 0x08 true).describes word)
    (holds : (Format.aluImmediate 0x08 true).meaning word 0 = ⟨[rt, rs], some value, none⟩) (s : Registers) :
    execute word s = some (s.write rt (s.read rs + BitVec.ofInt 32 value)) := by
  simp only [Format.describes, beq_iff_eq] at described
  simp only [Format.meaning, if_true, Meaning.mk.injEq, List.cons.injEq, Option.some.injEq, and_true] at holds
  obtain ⟨⟨rfl, rfl⟩, rfl⟩ := holds
  simp only [execute, described]

theorem execute_ori {value : Nat} (described : (Format.aluImmediate 0x0d false).describes word)
    (holds : (Format.aluImmediate 0x0d false).meaning word 0 = ⟨[rt, rs], some (value : Int), none⟩)
    (s : Registers) : execute word s = some (s.write rt (s.read rs ||| BitVec.ofNat 32 value)) := by
  simp only [Format.describes, beq_iff_eq] at described
  simp only [Format.meaning, Bool.false_eq_true, if_false, Meaning.mk.injEq, List.cons.injEq, Option.some.injEq,
    Nat.cast_inj, and_true] at holds
  obtain ⟨⟨rfl, rfl⟩, rfl⟩ := holds
  simp only [execute, described]

theorem execute_lui {value : Nat} (described : (Format.loadUpper 0x0f).describes word)
    (holds : (Format.loadUpper 0x0f).meaning word 0 = ⟨[rt], some (value : Int), none⟩) (s : Registers) :
    execute word s = some (s.write rt (BitVec.ofNat 32 value <<< 16)) := by
  simp only [Format.describes, beq_iff_eq] at described
  simp only [Format.meaning, Meaning.mk.injEq, List.cons.injEq, Option.some.injEq, Nat.cast_inj, and_true] at holds
  obtain ⟨rfl, rfl⟩ := holds
  simp only [execute, described]

theorem execute_nor (described : (Format.alu 0x27).describes word)
    (holds : (Format.alu 0x27).meaning word 0 = ⟨[rd, rs, rt], none, none⟩) (s : Registers) :
    execute word s = some (s.write rd (~~~(s.read rs ||| s.read rt))) := by
  simp only [Format.describes, Bool.and_eq_true, beq_iff_eq] at described
  simp only [Format.meaning, Meaning.mk.injEq, List.cons.injEq, and_true, and_self] at holds
  obtain ⟨rfl, rfl, rfl⟩ := holds
  have funct : (RType.unpack word).funct = 0x27 := described.2
  simp only [execute, described.1, funct]

theorem execute_sub (described : (Format.alu 0x22).describes word)
    (holds : (Format.alu 0x22).meaning word 0 = ⟨[rd, rs, rt], none, none⟩) (s : Registers) :
    execute word s = some (s.write rd (s.read rs - s.read rt)) := by
  simp only [Format.describes, Bool.and_eq_true, beq_iff_eq] at described
  simp only [Format.meaning, Meaning.mk.injEq, List.cons.injEq, and_true, and_self] at holds
  obtain ⟨rfl, rfl, rfl⟩ := holds
  have funct : (RType.unpack word).funct = 0x22 := described.2
  simp only [execute, described.1, funct]

end Mips

namespace RiscV

variable {word : Word} {rd rs1 rs2 : Nat} {value : Int}

theorem execute_addi (described : (Format.aluImmediate 0x0).describes word)
    (holds : (Format.aluImmediate 0x0).meaning word 0 = ⟨[rd, rs1], some value, none⟩) (s : Registers) :
    execute word s = some (s.write rd (s.read rs1 + BitVec.ofInt 32 value)) := by
  simp only [Format.describes, opImmediate, Bool.and_eq_true, beq_iff_eq] at described
  simp only [Format.meaning, Meaning.mk.injEq, List.cons.injEq, Option.some.injEq, and_true] at holds
  obtain ⟨⟨rfl, rfl⟩, rfl⟩ := holds
  simp only [execute, described.1, described.2]

theorem execute_xori (described : (Format.aluImmediate 0x4).describes word)
    (holds : (Format.aluImmediate 0x4).meaning word 0 = ⟨[rd, rs1], some value, none⟩) (s : Registers) :
    execute word s = some (s.write rd (s.read rs1 ^^^ BitVec.ofInt 32 value)) := by
  simp only [Format.describes, opImmediate, Bool.and_eq_true, beq_iff_eq] at described
  simp only [Format.meaning, Meaning.mk.injEq, List.cons.injEq, Option.some.injEq, and_true] at holds
  obtain ⟨⟨rfl, rfl⟩, rfl⟩ := holds
  simp only [execute, described.1, described.2]

theorem execute_sub (described : (Format.register 0x0 0x20).describes word)
    (holds : (Format.register 0x0 0x20).meaning word 0 = ⟨[rd, rs1, rs2], none, none⟩) (s : Registers) :
    execute word s = some (s.write rd (s.read rs1 - s.read rs2)) := by
  simp only [Format.describes, opRegister, Bool.and_eq_true, beq_iff_eq] at described
  simp only [Format.meaning, Meaning.mk.injEq, List.cons.injEq, and_true, and_self] at holds
  obtain ⟨rfl, rfl, rfl⟩ := holds
  have funct7 : (RType.unpack word).funct7 = 0x20 := described.2
  simp only [execute, described.1, funct7, if_true]

theorem execute_lui {value : Nat} (described : (Format.upper opLui).describes word)
    (holds : (Format.upper opLui).meaning word 0 = ⟨[rd], some (value : Int), none⟩) (s : Registers) :
    execute word s = some (s.write rd (BitVec.ofNat 32 value <<< 12)) := by
  simp only [Format.describes, opLui, beq_iff_eq] at described
  simp only [Format.meaning, Meaning.mk.injEq, List.cons.injEq, Option.some.injEq, Nat.cast_inj, and_true] at holds
  obtain ⟨rfl, rfl⟩ := holds
  simp only [execute, described]

end RiscV

end RiscAsm
