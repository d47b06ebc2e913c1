import RiscAsm.Proofs.AssembledProgram

namespace RiscAsm

namespace Format

/-- The operand that says where a branch or jump goes. Register jumps have none. -/
def targetToken? : Format → List Text → Option Text
  | .mips (.branch _), [_, _, token] | .mips (.branchZero _ _), [_, token] | .mips (.jump _), [token]
  | .riscv (.branch _), [_, _, token] | .riscv .jumpLink, [_, token] | .riscv .jumpLink, [token] => some token
  | _, _ => none

/-- Where the word of a branch or jump at an index goes, from the fields of the word and without wrapping around. -/
def reached? (index : Nat) (word : Word) : Format → Option Int
  | .mips (.branch _) | .mips (.branchZero _ _) => some (4 * (index + 1) + 4 * (Mips.IType.unpack word).signedImm)
  | .mips (.jump _) => some (4 * (Mips.JType.unpack word).target)
  | .riscv (.branch _) => some (4 * index + (RiscV.BType.unpack word).imm)
  | .riscv .jumpLink => some (4 * index + (RiscV.JType.unpack word).imm)
  | _ => none

end Format

variable {labels : LabelTable} {ops : List Text} {token : Text} {m : Meaning} {target word : Word} {index : Nat}

theorem Format.target_of_read? {format : Format} (read : format.read? labels ops = some m)
    (goes : format.targetToken? ops = some token) :
    ∃ target, labels.target token = .ok target ∧ m.target = some target := by
  unfold targetToken? at goes
  split at goes
  case h_1 | h_4 =>
    cases goes
    exact Meaning.target_of_read? [.register, .register] [_, _] (by decide) rfl read
  case h_2 | h_5 =>
    cases goes
    exact Meaning.target_of_read? [.register] [_] (by decide) rfl read
  case h_3 =>
    cases goes
    exact Meaning.target_of_read? [] [] (by decide) rfl read
  case h_6 =>
    cases goes
    obtain ⟨plain, ofPlain, rfl⟩ := Option.map_eq_some_iff.mp read
    obtain ⟨target, found, ofTarget⟩ := Meaning.target_of_read? [] [] (by decide) rfl ofPlain
    exact ⟨target, found, ofTarget⟩
  case h_7 => cases goes

theorem toNat_addressOf (small : index < 2 ^ 30) : (addressOf index).toNat = 4 * index := by
  unfold addressOf
  rw [BitVec.toNat_ofNat]
  omega

theorem Mips.IType.signedImm_unpack_pack {f : IType} (bound : f.imm < 2 ^ 16) :
    (unpack f.pack).signedImm = f.signedImm := by
  rw [unpack_pack]
  simp only [signedImm, Nat.mod_eq_of_lt bound]

theorem Mips.reached_of_branchBits? {i : IType} (small : index < 2 ^ 30)
    (fits : branchBits? (addressOf index) target = some i.imm) :
    4 * (index + 1 : Int) + 4 * (IType.unpack i.pack).signedImm = target.toNat := by
  have address := toNat_addressOf small
  obtain ⟨bound, reached, _⟩ := branchTarget_of_bits (by omega) fits
  rw [IType.signedImm_unpack_pack bound]
  omega

theorem Mips.Format.reached_of_word? {format : Mips.Format} (small : index < 2 ^ 30)
    (packed : format.word? (addressOf index) m = some word) (goes : m.target = some target) :
    (Format.mips format).reached? index word = some (target.toNat : Int) := by
  unfold word? at packed
  split at packed
  case h_8 opcode rs rt goal =>
    cases goes
    obtain ⟨imm, fits, rfl⟩ := Option.map_eq_some_iff.mp packed
    exact congrArg some (reached_of_branchBits? (i := { opcode, rs, rt, imm }) small fits)
  case h_9 opcode rt rs goal =>
    cases goes
    obtain ⟨imm, fits, rfl⟩ := Option.map_eq_some_iff.mp packed
    exact congrArg some (reached_of_branchBits? (i := { opcode, rs, rt, imm }) small fits)
  case h_10 opcode goal =>
    cases goes
    simp only [Option.ite_none_right_eq_some] at packed
    obtain ⟨aligned, packed⟩ := packed
    obtain ⟨wordIndex, fits, rfl⟩ := Option.map_eq_some_iff.mp packed
    obtain ⟨same, bound⟩ := unsignedBits?_eq_some.mp fits
    simp only [Format.reached?, JType.unpack_pack, Option.some.injEq]
    omega
  case h_11 => cases packed
  all_goals cases goes

theorem RiscV.Format.reached_of_word? {format : RiscV.Format} (small : index < 2 ^ 30)
    (packed : format.word? (addressOf index) m = some word) (goes : m.target = some target) :
    (Format.riscv format).reached? index word = some (target.toNat : Int) := by
  have address := toNat_addressOf small
  unfold word? at packed
  split at packed
  case h_6 funct3 rs1 rs2 goal =>
    cases goes
    obtain ⟨imm, fits, rfl⟩ := Option.map_eq_some_iff.mp packed
    obtain ⟨even, same, reached, _⟩ := relativeTarget_of_distance (by decide) fits
    simp only [Format.reached?, BType.unpack_pack, Int.ediv_mul_cancel (Int.dvd_of_emod_eq_zero even), same,
      Option.some.injEq]
    omega
  case h_8 rd goal =>
    cases goes
    obtain ⟨imm, fits, rfl⟩ := Option.map_eq_some_iff.mp packed
    obtain ⟨even, same, reached, _⟩ := relativeTarget_of_distance (by decide) fits
    simp only [Format.reached?, JType.unpack_pack, Int.ediv_mul_cancel (Int.dvd_of_emod_eq_zero even), same,
      Option.some.injEq]
    omega
  case h_9 => cases packed
  all_goals cases goes

theorem Format.reached_of_word? {format : Format} (small : index < 2 ^ 30)
    (packed : format.word? (addressOf index) m = some word) (goes : m.target = some target) :
    format.reached? index word = some (target.toNat : Int) := by
  cases format with
  | mips f => exact Mips.Format.reached_of_word? small packed goes
  | riscv f => exact RiscV.Format.reached_of_word? small packed goes

/-- Whether the line at a position defines a name. -/
def LineEffect.DefinesAt (effects : List LineEffect) (k : Nat) (name : Text) : Prop :=
  effects[k]?.bind LineEffect.label = some name

namespace Assembly

open LineEffect

def targetToken? (a : Assembly) (i : Nat) : Option Text :=
  a.program.instrs[i]?.bind fun instr => instr.format.targetToken? (Operand.split instr.operands)

def reached? (a : Assembly) (i : Nat) : Option Int :=
  a.program.instrs[i]?.bind fun instr => a.words[i]?.bind fun word => instr.format.reached? i word

variable {arch : Arch} {source : Text} {a : Assembly} {i k : Nat}

/-- The label of a line is found at the address that counts the instructions of the lines before it. -/
theorem address?_of_definesAt (accepted : ofSource arch source = .ok a)
    (defined : DefinesAt (LineEffect.ofSource arch source) k token) :
    a.program.labels.address? token = some (addressOf (sizeBefore (LineEffect.ofSource arch source) k)) := by
  obtain ⟨effect, atK, labelled⟩ := Option.bind_eq_some_iff.mp defined
  have found := (find?_eq_some_iff accepted).mpr ⟨k, effect, atK, labelled, rfl⟩
  simp [LabelTable.address?, found]

theorem sizeBefore_le_length (accepted : ofSource arch source = .ok a) (k : Nat) :
    sizeBefore (LineEffect.ofSource arch source) k ≤ a.program.instrs.length := by
  obtain ⟨e, expanded, _, _, placed, _⟩ := ofSource_eq_ok_iff.mp accepted
  obtain ⟨_, _, ofInstrs, _⟩ := Expansion.ofSource_eq_ok_iff.mp expanded
  rw [placed, Program.place_length, ofInstrs]
  exact sizeBefore_le _ k

/-- The operand of an encoded branch or jump has a target, and the word goes there. -/
theorem target_of_targetToken? (accepted : ofSource arch source = .ok a) (small : a.program.instrs.length < 2 ^ 30)
    (goes : a.targetToken? i = some token) :
    ∃ target, a.program.labels.target token = .ok target ∧ a.reached? i = some (target.toNat : Int) := by
  obtain ⟨instr, atIndex, ofInstr⟩ := Option.bind_eq_some_iff.mp goes
  have inside := (List.getElem?_eq_some_iff.mp atIndex).1
  obtain ⟨listed, address, word, atWord, encoded⟩ := encoded_of_getElem? accepted atIndex
  obtain ⟨m, read, packed⟩ := (PlacedInstr.encode_eq_ok_iff (Arch.arch_of_mem_formats listed)).mp encoded
  obtain ⟨target, ofToken, ofMeaning⟩ := Format.target_of_read? read ofInstr
  rw [address] at packed
  have reached := Format.reached_of_word? (by omega) packed ofMeaning
  exact ⟨target, ofToken, by simp [reached?, atIndex, atWord, reached]⟩

/-- References reach their labels. A branch or jump to a label that a line defines, before or after it, goes to the
first instruction that this line or one after it adds. No label is named like a number, so no number is taken for a
label, and every identifier that a branch or jump goes to is defined on some line. -/
theorem references_reach (accepted : ofSource arch source = .ok a) (small : a.program.instrs.length < 2 ^ 30) :
    (∀ i token k, a.targetToken? i = some token → DefinesAt (LineEffect.ofSource arch source) k token →
      a.reached? i = some (4 * sizeBefore (LineEffect.ofSource arch source) k)) ∧
    (∀ label ∈ a.program.labels.labels, Numeral.literal? label.name = none) ∧
    (∀ token value, Numeral.literal? token = some value → a.program.labels.find? token = none) ∧
    ∀ i token, a.targetToken? i = some token → isIdentifier token →
      ∃ k, DefinesAt (LineEffect.ofSource arch source) k token := by
  have named := named_labels accepted
  refine ⟨?_, fun label member => literal?_of_isIdentifier (named label member), ?_, ?_⟩
  · intro i token k goes defined
    obtain ⟨target, ofToken, reached⟩ := target_of_targetToken? accepted small goes
    have before := sizeBefore_le_length accepted k
    have found := address?_of_definesAt accepted defined
    simp only [LabelTable.target, found, Except.ok.injEq] at ofToken
    rw [reached, ← ofToken, toNat_addressOf (by omega)]
    push_cast
    rfl
  · intro token value reads
    have absent := named.address?_of_literal reads
    simpa [LabelTable.address?] using absent
  · intro i token goes identifier
    obtain ⟨target, ofToken, _⟩ := target_of_targetToken? accepted small goes
    cases found : a.program.labels.find? token with
    | none =>
      simp [LabelTable.target, LabelTable.address?, found, literal?_of_isIdentifier identifier, identifier] at ofToken
    | some label =>
      obtain ⟨k, effect, atK, labelled, _⟩ := (find?_eq_some_iff accepted).mp found
      exact ⟨k, Option.bind_eq_some_iff.mpr ⟨effect, atK, labelled⟩⟩

/-- A jump over a constant of two words, to a label after it. -/
theorem references_reach_end :
    ∃ a, ofSource .mips "j end\nli $t0, 70000\nend:".toList = .ok a ∧ a.program.instrs.length < 2 ^ 30 ∧
      a.targetToken? 0 = some "end".toList ∧ a.reached? 0 = some 12 := by
  have evaluated : (ofSource .mips "j end\nli $t0, 70000\nend:".toList).toOption.map
      (fun a => (a.program.instrs.length, a.targetToken? 0)) = some (3, some "end".toList) := by decide +kernel
  have defined : DefinesAt (LineEffect.ofSource .mips "j end\nli $t0, 70000\nend:".toList) 2 "end".toList := by
    unfold DefinesAt
    decide +kernel
  have before : sizeBefore (LineEffect.ofSource .mips "j end\nli $t0, 70000\nend:".toList) 2 = 3 := by
    decide +kernel
  obtain ⟨a, ofOption, same⟩ := Option.map_eq_some_iff.mp evaluated
  obtain ⟨length, goes⟩ := Prod.mk.inj same
  have accepted := toOption_eq_some.mp ofOption
  have small : a.program.instrs.length < 2 ^ 30 := by rw [length]; decide
  have reached := (references_reach accepted small).1 0 _ 2 goes defined
  rw [before] at reached
  exact ⟨a, accepted, small, goes, reached⟩

end Assembly

end RiscAsm
