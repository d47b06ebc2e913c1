import RiscAsm.Proofs.PrintedProgram
import RiscAsm.Proofs.RepackedFields

namespace RiscAsm

namespace Format

/-- Where the word of a branch or jump that holds a distance goes, without wrapping around. -/
def goal? (address word : Word) : Format → Option Int
  | .mips (.branch _) | .mips (.branchZero _ _) => some (address.toNat + 4 + 4 * (Mips.IType.unpack word).signedImm)
  | .riscv (.branch _) => some (address.toNat + (RiscV.BType.unpack word).imm)
  | .riscv .jumpLink => some (address.toNat + (RiscV.JType.unpack word).imm)
  | _ => none

/-- Whether the address that a word goes to, if its format holds a distance, lies in memory. -/
def StaysInMemory (format : Format) (address word : Word) : Prop :=
  ∀ goal, format.goal? address word = some goal → 0 ≤ goal ∧ goal ≤ 2 ^ 32 - 1

/-- A word with zeros in the fields that its format does not look at. -/
def canonical (word : Word) : Format → Word
  -- the shift amount
  | .mips (.alu _) => word.clear 10 6
  -- `rs`
  | .mips (.shift _) | .mips (.loadUpper _) => word.clear 25 21
  -- `rt`, `rd` and the shift amount
  | .mips (.jumpRegister _) => word.clear 20 6
  -- `rt` and the shift amount
  | .mips (.jumpLinkRegister _) => (word.clear 20 16).clear 10 6
  | _ => word

theorem staysInMemory_of_goal? {format : Format} {address word : Word} (fixed : format.goal? address word = none) :
    format.StaysInMemory address word := by
  intro goal found
  rw [fixed] at found
  cases found

end Format

/-- A word is packed from its own fields again if the one field that is checked is accepted as it was read. -/
theorem map_pack_eq_some_iff {α : Type} {field? : Option α} {field : α} {pack : α → Word} {stays : Prop}
    {word again : Word} (checked : ∀ found, field? = some found ↔ stays ∧ found = field) (whole : pack field = word) :
    field?.map pack = some again ↔ stays ∧ again = word := by
  rw [Option.map_eq_some_iff]
  constructor
  · rintro ⟨found, accepted, rfl⟩
    obtain ⟨inside, rfl⟩ := (checked found).mp accepted
    exact ⟨inside, whole⟩
  · rintro ⟨inside, rfl⟩
    exact ⟨field, (checked field).mpr ⟨inside, rfl⟩, whole⟩

namespace Mips

variable {address word : Word} {i : IType}

theorem toNat_branchTarget (address : Word) (i : IType) :
    ((branchTarget address i).toNat : Int) = (address.toNat + 4 + 4 * i.signedImm) % 2 ^ 32 := by
  have four : (4 : Word).toNat = 4 := rfl
  simp only [branchTarget, BitVec.toNat_add, BitVec.toNat_ofInt, four]
  omega

theorem signedBits?_signedImm (bound : i.imm < 2 ^ 16) : signedBits? 16 i.signedImm = some i.imm := by
  rw [signedBits?_of_range i.signedImm_range, IType.signedImm_eq, BitVec.ofInt_toInt, BitVec.toNat_ofNat,
    Nat.mod_eq_of_lt bound]

/-- A branch is encoded with the offset it was printed for, unless its target has wrapped around: then the target is
too far away for any branch. -/
theorem branchBits?_branchTarget (aligned : address.toNat % 4 = 0) (bound : i.imm < 2 ^ 16) {bits : Nat} :
    branchBits? address (branchTarget address i) = some bits ↔
      (0 ≤ address.toNat + 4 + 4 * i.signedImm ∧ address.toNat + 4 + 4 * i.signedImm ≤ 2 ^ 32 - 1) ∧ bits = i.imm := by
  have target := toNat_branchTarget address i
  have range := i.signedImm_range
  have addressBound := address.isLt
  have targetAligned : (branchTarget address i).toNat % 4 = 0 := by omega
  simp only [branchBits?, targetAligned, if_true]
  by_cases inside : 0 ≤ address.toNat + 4 + 4 * i.signedImm ∧ address.toNat + 4 + 4 * i.signedImm ≤ 2 ^ 32 - 1
  · have offset : ((branchTarget address i).toNat / 4 : Nat) - ((address.toNat / 4 : Nat) + 1 : Int) = i.signedImm := by
      omega
    rw [offset, signedBits?_signedImm bound, Option.some.injEq]
    exact ⟨fun same => ⟨inside, same.symm⟩, fun same => same.2.symm⟩
  · have far : ¬ (-2 ^ (16 - 1) ≤ ((branchTarget address i).toNat / 4 : Nat) - ((address.toNat / 4 : Nat) + 1 : Int) ∧
        ((branchTarget address i).toNat / 4 : Nat) - ((address.toNat / 4 : Nat) + 1 : Int) < 2 ^ (16 - 1)) := by
      omega
    rw [signedBits?, if_neg far]
    exact iff_of_false (by simp) fun held => inside held.1

/-- Clearing fields of a register instruction leaves its other fields, which make up what is left. -/
theorem RType.clear_eq_pack {hi : Nat} (below : hi < 26) (special : opcodeOf word = 0) (lo : Nat) :
    word.clear hi lo = (unpack (word.clear hi lo)).pack ∧ opcodeOf (word.clear hi lo) = 0 := by
  have opcode : opcodeOf (word.clear hi lo) = 0 := by
    rw [opcodeOf, Word.bits_clear_apart word (by omega) (Or.inr below), ← opcodeOf, special]
  exact ⟨(pack_unpack_of_opcodeOf opcode).symm, opcode⟩

namespace Format

open RiscAsm.Format

/-- The fields of a word of some format make up the word again, but for what the format ignores. -/
theorem word?_meaning {format : Format} (described : format.describes word) (aligned : address.toNat % 4 = 0)
    {again : Word} :
    format.word? address (format.meaning word address) = some again ↔
      (mips format).StaysInMemory address word ∧ again = (mips format).canonical word := by
  have fields := RType.unpack_lt word
  have immediate := IType.unpack_lt word
  have whole : IType.pack { IType.unpack word with opcode := opcodeOf word } = word := IType.pack_unpack word
  cases format with
  | alu funct =>
    simp only [describes, Bool.and_eq_true, beq_iff_eq] at described
    obtain ⟨special, rfl⟩ := described
    rw [canonical, (RType.clear_eq_pack (by decide) special 6).1]
    simp (disch := decide) [word?, meaning, StaysInMemory, goal?, RType.unpack, Word.bits_clear_apart,
      Word.bits_clear_inside, eq_comm]
  | shift funct =>
    simp only [describes, Bool.and_eq_true, beq_iff_eq] at described
    obtain ⟨special, rfl⟩ := described
    rw [canonical, (RType.clear_eq_pack (by decide) special 21).1]
    have amount : unsignedBits? 5 (Word.bits word 10 6) = some (Word.bits word 10 6) := unsignedBits?_of_lt fields.2.2.2
    simp (disch := decide) [word?, meaning, StaysInMemory, goal?, RType.unpack, Word.bits_clear_apart,
      Word.bits_clear_inside, amount, eq_comm]
  | jumpRegister funct =>
    simp only [describes, Bool.and_eq_true, beq_iff_eq] at described
    obtain ⟨special, rfl⟩ := described
    rw [canonical, (RType.clear_eq_pack (by decide) special 6).1]
    simp (disch := decide) [word?, meaning, StaysInMemory, goal?, RType.unpack, Word.bits_clear_apart,
      Word.bits_clear_inside, eq_comm]
  | jumpLinkRegister funct =>
    simp only [describes, Bool.and_eq_true, beq_iff_eq] at described
    obtain ⟨special, rfl⟩ := described
    have first := RType.clear_eq_pack (show 20 < 26 by decide) special 16
    rw [canonical, (RType.clear_eq_pack (by decide) first.2 6).1]
    simp (disch := decide) [word?, meaning, StaysInMemory, goal?, RType.unpack, Word.bits_clear_apart,
      Word.bits_clear_inside, eq_comm]
  | aluImmediate opcode signed =>
    simp only [describes, beq_iff_eq] at described
    subst described
    have minus := signedBits?_signedImm immediate.2.2
    have plus : unsignedBits? 16 (IType.unpack word).imm = _ := unsignedBits?_of_lt immediate.2.2
    cases signed <;>
    simp [word?, meaning, StaysInMemory, goal?, canonical, minus, plus, whole, eq_comm]
  | loadUpper opcode =>
    simp only [describes, beq_iff_eq] at described
    subst described
    have plus : unsignedBits? 16 (Word.bits word 15 0) = some (Word.bits word 15 0) := unsignedBits?_of_lt immediate.2.2
    rw [canonical, ← IType.pack_unpack (word.clear 25 21)]
    simp (disch := decide) [word?, meaning, StaysInMemory, goal?, plus, IType.unpack, opcodeOf, Word.bits_clear_apart,
      Word.bits_clear_inside, eq_comm]
  | memory opcode =>
    simp only [describes, beq_iff_eq] at described
    subst described
    have minus := signedBits?_signedImm immediate.2.2
    simp [word?, meaning, StaysInMemory, goal?, canonical, minus, whole, eq_comm]
  | branch opcode =>
    simp only [describes, beq_iff_eq] at described
    subst described
    refine map_pack_eq_some_iff (fun found => ?_) whole
    rw [branchBits?_branchTarget aligned immediate.2.2]
    simp [StaysInMemory, goal?]
  | branchZero opcode rt =>
    simp only [describes, Bool.and_eq_true, beq_iff_eq] at described
    obtain ⟨rfl, rfl⟩ := described
    refine map_pack_eq_some_iff (fun found => ?_) whole
    rw [branchBits?_branchTarget aligned immediate.2.2]
    simp [StaysInMemory, goal?]
  | jump opcode =>
    simp only [describes, beq_iff_eq] at described
    subst described
    have index := JType.unpack_lt word
    have address : (BitVec.ofNat 32 (4 * (JType.unpack word).target)).toNat = 4 * (JType.unpack word).target := by
      rw [BitVec.toNat_ofNat]
      omega
    have plus : unsignedBits? 26 (JType.unpack word).target = _ := unsignedBits?_of_lt index
    have whole : JType.pack { JType.unpack word with opcode := opcodeOf word } = word := JType.pack_unpack word
    simp [word?, meaning, StaysInMemory, goal?, canonical, address, plus, whole, eq_comm]
  | reserved => cases described

end Format

end Mips

namespace RiscV

variable {address word : Word}

/-- An offset whose lowest bit has no place in the word is even. -/
theorem even_of_append_zero {width : Nat} (high : BitVec width) : (high ++ 0#1).toInt % 2 = 0 := by
  have whole : (high ++ 0#1).toNat = high.toNat * 2 := by rw [toNat_append_eq]; simp
  rw [BitVec.toInt_eq_toNat_cond, whole, pow_succ]
  split <;> push_cast <;> omega

theorem distance?_relativeTarget {width : Nat} {imm : Int} (wide : width ≤ 21) (even : imm % 2 = 0)
    (range : -2 ^ (width - 1) ≤ imm ∧ imm < 2 ^ (width - 1)) {offset : Int} :
    distance? width address (relativeTarget address imm) = some offset ↔
      (0 ≤ address.toNat + imm ∧ address.toNat + imm ≤ 2 ^ 32 - 1) ∧ offset = imm := by
  have target : ((relativeTarget address imm).toNat : Int) = (address.toNat + imm) % 2 ^ 32 := by
    simp only [relativeTarget, BitVec.toNat_add, BitVec.toNat_ofInt]
    omega
  have limit : (2 : Int) ^ (width - 1) ≤ 2 ^ 20 := pow_le_pow_right₀ (by decide) (by omega)
  have addressBound := address.isLt
  have evenOffset : ((relativeTarget address imm).toNat - address.toNat : Int) % 2 = 0 := by omega
  simp only [distance?, evenOffset, if_true, fits?]
  by_cases inside : 0 ≤ address.toNat + imm ∧ address.toNat + imm ≤ 2 ^ 32 - 1
  · have same : ((relativeTarget address imm).toNat - address.toNat : Int) = imm := by omega
    rw [same, signedBits?_of_range range, Option.map_some, Option.some.injEq]
    exact ⟨fun found => ⟨inside, found.symm⟩, fun found => found.2.symm⟩
  · have far : ¬ (-2 ^ (width - 1) ≤ ((relativeTarget address imm).toNat - address.toNat : Int) ∧
        ((relativeTarget address imm).toNat - address.toNat : Int) < 2 ^ (width - 1)) := by omega
    rw [signedBits?, if_neg far, Option.map_none]
    exact iff_of_false (by simp) fun held => inside held.1

theorem BType.imm_even (word : Word) : (unpack word).imm % 2 = 0 := even_of_append_zero _

theorem JType.imm_even (word : Word) : (unpack word).imm % 2 = 0 := even_of_append_zero _

theorem BType.imm_range (word : Word) : -2 ^ 12 ≤ (unpack word).imm ∧ (unpack word).imm < 2 ^ 12 :=
  ⟨BitVec.le_toInt _, BitVec.toInt_lt⟩

theorem JType.imm_range (word : Word) : -2 ^ 20 ≤ (unpack word).imm ∧ (unpack word).imm < 2 ^ 20 :=
  ⟨BitVec.le_toInt _, BitVec.toInt_lt⟩

namespace Format

open RiscAsm.Format

theorem word?_meaning {format : Format} (described : format.describes word) {again : Word} :
    format.word? address (format.meaning word address) = some again ↔
      (riscv format).StaysInMemory address word ∧ again = (riscv format).canonical word := by
  have free : ∀ {imm : Int}, (riscv format).goal? address word = none → -2 ^ 11 ≤ imm ∧ imm < 2 ^ 11 →
      ∀ found, fits? 12 imm = some found ↔ (riscv format).StaysInMemory address word ∧ found = imm := by
    intro imm fixed range found
    rw [fits?, signedBits?_of_range range, Option.map_some, Option.some.injEq]
    exact ⟨fun same => ⟨staysInMemory_of_goal? fixed, same.symm⟩, fun same => same.2.symm⟩
  cases format with
  | register funct3 funct7 =>
    simp only [describes, Bool.and_eq_true, beq_iff_eq] at described
    obtain ⟨⟨opcode, rfl⟩, rfl⟩ := described
    have whole := RType.pack_unpack word
    simp only [RType.unpack, opcode] at whole
    simp [word?, meaning, StaysInMemory, goal?, canonical, RType.unpack, whole, eq_comm]
  | aluImmediate funct3 =>
    simp only [describes, Bool.and_eq_true, beq_iff_eq] at described
    obtain ⟨opcode, rfl⟩ := described
    have whole : IType.pack { IType.unpack word with opcode := opImmediate } = word := by
      rw [← opcode]
      exact IType.pack_unpack word
    exact map_pack_eq_some_iff (free rfl (IType.imm_range word)) whole
  | load funct3 =>
    simp only [describes, Bool.and_eq_true, beq_iff_eq] at described
    obtain ⟨opcode, rfl⟩ := described
    have whole : IType.pack { IType.unpack word with opcode := opLoad } = word := by
      rw [← opcode]
      exact IType.pack_unpack word
    exact map_pack_eq_some_iff (free rfl (IType.imm_range word)) whole
  | jumpLinkRegister =>
    simp only [describes, Bool.and_eq_true, beq_iff_eq] at described
    obtain ⟨opcode, low⟩ := described
    have whole : IType.pack { IType.unpack word with opcode := opJalr, funct3 := 0 } = word := by
      rw [← opcode, ← low]
      exact IType.pack_unpack word
    exact map_pack_eq_some_iff (free rfl (IType.imm_range word)) whole
  | store funct3 =>
    simp only [describes, Bool.and_eq_true, beq_iff_eq] at described
    obtain ⟨opcode, rfl⟩ := described
    have whole : SType.pack { SType.unpack word with opcode := opStore } = word := by
      rw [← opcode]
      exact SType.pack_unpack word
    exact map_pack_eq_some_iff (free rfl (SType.imm_range word)) whole
  | branch funct3 =>
    simp only [describes, Bool.and_eq_true, beq_iff_eq] at described
    obtain ⟨opcode, rfl⟩ := described
    have whole : BType.pack { BType.unpack word with opcode := opBranch } = word := by
      rw [← opcode]
      exact BType.pack_unpack word
    refine map_pack_eq_some_iff (fun found => ?_) whole
    rw [distance?_relativeTarget (show 13 ≤ 21 by decide) (BType.imm_even word) (BType.imm_range word)]
    simp [StaysInMemory, goal?]
  | upper op =>
    simp only [describes, beq_iff_eq] at described
    subst described
    have whole : UType.pack { UType.unpack word with opcode := opcodeOf word } = word := UType.pack_unpack word
    have plus : unsignedBits? 20 (UType.unpack word).imm = _ := unsignedBits?_of_lt (UType.unpack_lt word).1
    simp [word?, meaning, StaysInMemory, goal?, canonical, plus, whole, eq_comm]
  | jumpLink =>
    simp only [describes, beq_iff_eq] at described
    have whole : JType.pack { JType.unpack word with opcode := opJal } = word := by
      rw [← described]
      exact JType.pack_unpack word
    refine map_pack_eq_some_iff (fun found => ?_) whole
    rw [distance?_relativeTarget (show 21 ≤ 21 by decide) (JType.imm_even word) (JType.imm_range word)]
    simp [StaysInMemory, goal?]
  | reserved => cases described

end Format

end RiscV

theorem Format.word?_meaning {format : Format} {address word again : Word} (described : format.describes word)
    (aligned : address.toNat % 4 = 0) :
    format.word? address (format.meaning word address) = some again ↔
      format.StaysInMemory address word ∧ again = format.canonical word := by
  cases format with
  | mips f => exact Mips.Format.word?_meaning described aligned
  | riscv f => exact RiscV.Format.word?_meaning described

namespace Arch

variable {arch : Arch} {word address : Word} {s : Statement}

/-- What a word is disassembled to is the entry that describes it, with the operands printed for the word. -/
theorem disassemble?_eq_some (shown : arch.disassemble? word address = some s) :
    ∃ format, arch.decode? word = some (s.mnemonic, format) ∧ (s.mnemonic, format) ∈ arch.formats ∧
      format.describes word ∧ s = ⟨s.mnemonic, printed (format.operandTexts word address)⟩ := by
  obtain ⟨⟨mnemonic, format⟩, found, rfl⟩ := Option.map_eq_some_iff.mp shown
  exact ⟨format, found, List.mem_of_find?_eq_some found, by simpa using List.find?_some found, rfl⟩

/-- Encoding undoes disassembly. The statement of a word is a line for one instruction with the decoded mnemonic, which
is encoded unless the word goes out of memory, and then to the word itself, with zeros where its format ignores bits. -/
theorem reencodes_of_disassemble? (shown : arch.disassemble? word address = some s)
    (aligned : address.toNat % 4 = 0) :
    ∃ format, arch.decode? word = some (s.mnemonic, format) ∧
      Expansion.ofSource arch s.text = .ok ⟨arch, #[⟨s.mnemonic, s.operands, format, 1, none⟩], #[]⟩ ∧
      (∀ (e : Expansion) line, e.arch = arch →
        e.feed line s.text = (e.append [⟨s.mnemonic, s.operands, format, line, none⟩], none)) ∧
      ∀ (labels : LabelTable) line origin again, labels.Named →
        (PlacedInstr.encode arch labels ⟨⟨s.mnemonic, s.operands, format, line, origin⟩, address⟩ = .ok again ↔
          format.StaysInMemory address word ∧ again = format.canonical word) := by
  obtain ⟨format, decoded, listed, described, whole⟩ := disassemble?_eq_some shown
  have direct : Direct arch (s, format) := by
    rw [whole]
    exact direct_operandTexts listed word address
  refine ⟨format, decoded, ?_, ?_, ?_⟩
  · have alone : ∀ row ∈ [(s, format)], Direct arch row := by simpa using direct
    simpa using Expansion.ofSource_direct alone
  · rintro e line rfl
    simp only [Expansion.feed, direct.effect line, Expansion.define]
  · intro labels line origin again named
    have operands : Operand.split s.operands = format.operandTexts word address := by
      rw [whole, split_printed (format.plain_operandTexts word address)]
    have read : format.read? labels (format.operandTexts word address) = some (format.meaning word address) :=
      Format.read?_operandTexts named described
    rw [PlacedInstr.encode_eq_ok_iff (arch_of_mem_formats listed), ← Format.word?_meaning described aligned, operands,
      read]
    simp

/-- A register jump with numbers in the two fields that it ignores is encoded with zeros there, and a branch to the word
before the first one is printed with the last address and not encoded at all. -/
theorem reencodes_of_disassemble?_jalr :
    Arch.mips.disassemble? 0x0105f8c9#32 4#32 = some ⟨"jalr".toList, "$t0".toList⟩ ∧
      PlacedInstr.encode .mips {} ⟨⟨"jalr".toList, "$t0".toList, .mips (.jumpLinkRegister 9), 1, none⟩, 4#32⟩ =
        .ok 0x0100f809#32 ∧
      Arch.mips.disassemble? 0x1000fffe#32 0#32 = some ⟨"beq".toList, "$zero, $zero, 0xfffffffc".toList⟩ ∧
      ∀ again, PlacedInstr.encode .mips {}
        ⟨⟨"beq".toList, "$zero, $zero, 0xfffffffc".toList, .mips (.branch 4), 1, none⟩, 0#32⟩ ≠ .ok again := by
  have jump : Arch.mips.disassemble? 0x0105f8c9#32 4#32 = some ⟨"jalr".toList, "$t0".toList⟩ := by decide +kernel
  have branch : Arch.mips.disassemble? 0x1000fffe#32 0#32 = some ⟨"beq".toList, "$zero, $zero, 0xfffffffc".toList⟩ := by
    decide +kernel
  obtain ⟨format, decoded, _, _, encoded⟩ := reencodes_of_disassemble? jump (by decide)
  obtain ⟨format', decoded', _, _, encoded'⟩ := reencodes_of_disassemble? branch (by decide)
  cases decoded.symm.trans (show _ = some ("jalr".toList, .mips (.jumpLinkRegister 9)) by decide +kernel)
  cases decoded'.symm.trans (show _ = some ("beq".toList, .mips (.branch 4)) by decide +kernel)
  refine ⟨jump, (encoded {} 1 none _ LabelTable.named_empty).mpr ⟨?_, by decide⟩, branch, ?_⟩
  · exact Format.staysInMemory_of_goal? rfl
  · intro again accepted
    have inside := ((encoded' {} 1 none again LabelTable.named_empty).mp accepted).1 _ rfl
    exact absurd inside (by decide)

end Arch

end RiscAsm
