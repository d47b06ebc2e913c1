import RiscAsm.Proofs.RegisterMachine

namespace RiscAsm

open Text Operand

namespace Statement

/-- A statement is one instruction that is encoded to the same word everywhere, and this word has an effect. -/
def HasEffect (arch : Arch) (s : Statement) (effect : Registers → Registers) : Prop :=
  ∃ format word, arch.format? s.mnemonic = some format ∧
    (∀ line origin labels address, PlacedInstr.encode arch labels
      ⟨⟨s.mnemonic, s.operands, format, line, origin⟩, address⟩ = .ok word) ∧
    ∀ before, arch.execute word before = some (effect before)

/-- The instructions of a statement are encoded to the same words everywhere, and these words, executed one after
another, relate the registers before and after them. -/
def Runs (arch : Arch) (s : Statement) (relates : Registers → Registers → Prop) : Prop :=
  ∀ line, ∃ instrs words, s.expand arch line = .ok instrs ∧
    List.Forall₂ (fun instr word => ∀ labels address, PlacedInstr.encode arch labels ⟨instr, address⟩ = .ok word)
      instrs words ∧
    ∀ before, ∃ after, arch.run words before = some after ∧ relates before after

theorem Runs.mono {arch : Arch} {s : Statement} {relates weaker : Registers → Registers → Prop}
    (runs : s.Runs arch relates) (implies : ∀ before after, relates before after → weaker before after) :
    s.Runs arch weaker := by
  intro line
  obtain ⟨instrs, words, expanded, encoded, ran⟩ := runs line
  refine ⟨instrs, words, expanded, encoded, fun before => ?_⟩
  obtain ⟨after, ofRun, related⟩ := ran before
  exact ⟨after, ofRun, implies before after related⟩

/-- An instruction of the table has an effect if its operands denote the same everywhere, fit its fields, and every
word that holds them has the effect. -/
theorem hasEffect_of_read? {arch : Arch} {mnemonic : String} {ops : List Text} {effect : Registers → Registers}
    (format : Format) (m : Meaning) (listed : (mnemonic.toList, format) ∈ arch.formats)
    (tokens : ∀ token ∈ ops, IsToken token) (read : ∀ labels, format.read? labels ops = some m)
    (packed : ∃ word, ∀ address, format.word? address m = some word)
    (executes : ∀ word, format.describes word → format.meaning word 0 = m →
      ∀ before, arch.execute word before = some (effect before)) :
    (Pseudo.statement mnemonic ops).HasEffect arch effect := by
  obtain ⟨word, packed⟩ := packed
  obtain ⟨described, holds⟩ := Format.describes_of_word? listed (by decide) (Format.read?_lt (read {})) (packed 0)
  refine ⟨format, word, Arch.format?_eq_some.mpr listed, ?_, executes word described holds⟩
  intro line origin labels address
  refine (PlacedInstr.encode_eq_ok_iff ?_).mpr ⟨m, ?_, packed address⟩
  · exact Arch.arch_of_mem_formats listed
  · simpa only [Pseudo.statement, split_intercalate tokens] using read labels

theorem run_of_hasEffect {arch : Arch} {statements : List Statement} {effects : List (Registers → Registers)}
    (each : List.Forall₂ (HasEffect arch) statements effects) (line : Nat) (origin : Option Pseudo) :
    ∃ instrs words, List.Forall₂ (fun s i => instr arch line origin s = .ok i) statements instrs ∧
      List.Forall₂ (fun instr word => ∀ labels address, PlacedInstr.encode arch labels ⟨instr, address⟩ = .ok word)
        instrs words ∧
      ∀ before, arch.run words before = some (effects.foldl (fun s effect => effect s) before) := by
  induction each with
  | nil => exact ⟨[], [], .nil, .nil, fun _ => rfl⟩
  | @cons s effect statements effects first _ ih =>
    obtain ⟨format, word, found, encoded, executed⟩ := first
    obtain ⟨instrs, words, mapped, rest, ran⟩ := ih
    refine ⟨_ :: instrs, word :: words, .cons (instr_of_format? found line origin) mapped,
      .cons (encoded line origin) rest, ?_⟩
    intro before
    simp only [Arch.run, List.foldlM_cons, executed, Option.bind_eq_bind, Option.bind_some, List.foldl_cons]
    exact ran (effect before)

end Statement

namespace Mips

open Pseudo (statement)

variable {rd rs rt token : Text} {d s t n : Nat} {value : Int}

theorem hasEffect_addi (tokens : ∀ op ∈ [rt, rs, token], IsToken op) (ofRt : Arch.mips.register? rt = some t)
    (ofRs : Arch.mips.register? rs = some s) (literal : Numeral.literal? token = some value)
    (range : -2 ^ 15 ≤ value ∧ value < 2 ^ 15) :
    (statement "addi" [rt, rs, token]).HasEffect .mips fun r => r.write t (r.read s + BitVec.ofInt 32 value) := by
  refine Statement.hasEffect_of_read? (.mips (.aluImmediate 0x08 true)) ⟨[t, s], some value, none⟩
    (by decide) tokens ?_ ?_ fun _ described holds => execute_addi described holds
  · intro labels
    simp [RiscAsm.Format.read?, Format.read?, Format.slots, Slot.read?, Meaning.append, ofRt, ofRs, literal]
  · have fits := signedBits?_of_range (show -2 ^ (16 - 1) ≤ value ∧ value < 2 ^ (16 - 1) from range)
    refine ⟨IType.pack { opcode := 0x08, rs := s, rt := t, imm := (BitVec.ofInt 16 value).toNat }, fun address => ?_⟩
    simp only [RiscAsm.Format.word?, Format.word?, if_true, fits, Option.map_some]

theorem hasEffect_ori (tokens : ∀ op ∈ [rt, rs, token], IsToken op) (ofRt : Arch.mips.register? rt = some t)
    (ofRs : Arch.mips.register? rs = some s) (literal : Numeral.literal? token = some (n : Int)) (range : n < 2 ^ 16) :
    (statement "ori" [rt, rs, token]).HasEffect .mips fun r => r.write t (r.read s ||| BitVec.ofNat 32 n) := by
  refine Statement.hasEffect_of_read? (.mips (.aluImmediate 0x0d false)) ⟨[t, s], some n, none⟩
    (by decide) tokens ?_ ?_ fun _ described holds => execute_ori described holds
  · intro labels
    simp [RiscAsm.Format.read?, Format.read?, Format.slots, Slot.read?, Meaning.append, ofRt, ofRs, literal]
  · refine ⟨IType.pack { opcode := 0x0d, rs := s, rt := t, imm := n }, fun address => ?_⟩
    simp only [RiscAsm.Format.word?, Format.word?, Bool.false_eq_true, if_false, unsignedBits?_of_lt range,
      Option.map_some]

theorem hasEffect_lui (tokens : ∀ op ∈ [rt, token], IsToken op) (ofRt : Arch.mips.register? rt = some t)
    (literal : Numeral.literal? token = some (n : Int)) (range : n < 2 ^ 16) :
    (statement "lui" [rt, token]).HasEffect .mips fun r => r.write t (BitVec.ofNat 32 n <<< 16) := by
  refine Statement.hasEffect_of_read? (.mips (.loadUpper 0x0f)) ⟨[t], some n, none⟩
    (by decide) tokens ?_ ?_ fun _ described holds => execute_lui described holds
  · intro labels
    simp [RiscAsm.Format.read?, Format.read?, Format.slots, Slot.read?, Meaning.append, ofRt, literal]
  · refine ⟨IType.pack { opcode := 0x0f, rt := t, imm := n }, fun address => ?_⟩
    simp only [RiscAsm.Format.word?, Format.word?, unsignedBits?_of_lt range, Option.map_some]

theorem hasEffect_nor (tokens : ∀ op ∈ [rd, rs, rt], IsToken op) (ofRd : Arch.mips.register? rd = some d)
    (ofRs : Arch.mips.register? rs = some s) (ofRt : Arch.mips.register? rt = some t) :
    (statement "nor" [rd, rs, rt]).HasEffect .mips fun r => r.write d (~~~(r.read s ||| r.read t)) := by
  refine Statement.hasEffect_of_read? (.mips (.alu 0x27)) ⟨[d, s, t], none, none⟩
    (by decide) tokens ?_ ⟨_, fun _ => rfl⟩ fun _ described holds => execute_nor described holds
  intro labels
  simp [RiscAsm.Format.read?, Format.read?, Format.slots, Slot.read?, Meaning.append, ofRd, ofRs, ofRt]

theorem hasEffect_sub (tokens : ∀ op ∈ [rd, rs, rt], IsToken op) (ofRd : Arch.mips.register? rd = some d)
    (ofRs : Arch.mips.register? rs = some s) (ofRt : Arch.mips.register? rt = some t) :
    (statement "sub" [rd, rs, rt]).HasEffect .mips fun r => r.write d (r.read s - r.read t) := by
  refine Statement.hasEffect_of_read? (.mips (.alu 0x22)) ⟨[d, s, t], none, none⟩
    (by decide) tokens ?_ ⟨_, fun _ => rfl⟩ fun _ described holds => execute_sub described holds
  intro labels
  simp [RiscAsm.Format.read?, Format.read?, Format.slots, Slot.read?, Meaning.append, ofRd, ofRs, ofRt]

end Mips

namespace RiscV

open Pseudo (statement)

variable {rd rs1 rs2 token : Text} {d s t n : Nat} {value : Int}

theorem hasEffect_addi (tokens : ∀ op ∈ [rd, rs1, token], IsToken op) (ofRd : Arch.riscv.register? rd = some d)
    (ofRs1 : Arch.riscv.register? rs1 = some s) (literal : Numeral.literal? token = some value)
    (range : -2 ^ 11 ≤ value ∧ value < 2 ^ 11) :
    (statement "addi" [rd, rs1, token]).HasEffect .riscv fun r => r.write d (r.read s + BitVec.ofInt 32 value) := by
  refine Statement.hasEffect_of_read? (.riscv (.aluImmediate 0x0)) ⟨[d, s], some value, none⟩
    (by decide) tokens ?_ ?_ fun _ described holds => execute_addi described holds
  · intro labels
    simp [RiscAsm.Format.read?, Format.read?, Format.slots, Slot.read?, Meaning.append, ofRd, ofRs1, literal]
  · have fits := signedBits?_of_range (show -2 ^ (12 - 1) ≤ value ∧ value < 2 ^ (12 - 1) from range)
    refine ⟨IType.pack { imm := value, rs1 := s, rd := d, opcode := opImmediate }, fun address => ?_⟩
    simp only [RiscAsm.Format.word?, Format.word?, fits?, fits, Option.map_some]

theorem hasEffect_xori (tokens : ∀ op ∈ [rd, rs1, token], IsToken op) (ofRd : Arch.riscv.register? rd = some d)
    (ofRs1 : Arch.riscv.register? rs1 = some s) (literal : Numeral.literal? token = some value)
    (range : -2 ^ 11 ≤ value ∧ value < 2 ^ 11) :
    (statement "xori" [rd, rs1, token]).HasEffect .riscv fun r => r.write d (r.read s ^^^ BitVec.ofInt 32 value) := by
  refine Statement.hasEffect_of_read? (.riscv (.aluImmediate 0x4)) ⟨[d, s], some value, none⟩
    (by decide) tokens ?_ ?_ fun _ described holds => execute_xori described holds
  · intro labels
    simp [RiscAsm.Format.read?, Format.read?, Format.slots, Slot.read?, Meaning.append, ofRd, ofRs1, literal]
  · have fits := signedBits?_of_range (show -2 ^ (12 - 1) ≤ value ∧ value < 2 ^ (12 - 1) from range)
    refine ⟨IType.pack { imm := value, rs1 := s, funct3 := 0x4, rd := d, opcode := opImmediate }, fun address => ?_⟩
    simp only [RiscAsm.Format.word?, Format.word?, fits?, fits, Option.map_some]

theorem hasEffect_lui (tokens : ∀ op ∈ [rd, token], IsToken op) (ofRd : Arch.riscv.register? rd = some d)
    (literal : Numeral.literal? token = some (n : Int)) (range : n < 2 ^ 20) :
    (statement "lui" [rd, token]).HasEffect .riscv fun r => r.write d (BitVec.ofNat 32 n <<< 12) := by
  refine Statement.hasEffect_of_read? (.riscv (.upper opLui)) ⟨[d], some n, none⟩
    (by decide) tokens ?_ ?_ fun _ described holds => execute_lui described holds
  · intro labels
    simp [RiscAsm.Format.read?, Format.read?, Format.slots, Slot.read?, Meaning.append, ofRd, literal]
  · refine ⟨UType.pack { imm := n, rd := d, opcode := opLui }, fun address => ?_⟩
    simp only [RiscAsm.Format.word?, Format.word?, unsignedBits?_of_lt range, Option.map_some]

theorem hasEffect_sub (tokens : ∀ op ∈ [rd, rs1, rs2], IsToken op) (ofRd : Arch.riscv.register? rd = some d)
    (ofRs1 : Arch.riscv.register? rs1 = some s) (ofRs2 : Arch.riscv.register? rs2 = some t) :
    (statement "sub" [rd, rs1, rs2]).HasEffect .riscv fun r => r.write d (r.read s - r.read t) := by
  refine Statement.hasEffect_of_read? (.riscv (.register 0x0 0x20)) ⟨[d, s, t], none, none⟩
    (by decide) tokens ?_ ⟨_, fun _ => rfl⟩ fun _ described holds => execute_sub described holds
  intro labels
  simp [RiscAsm.Format.read?, Format.read?, Format.slots, Slot.read?, Meaning.append, ofRd, ofRs1, ofRs2]

end RiscV

end RiscAsm
