import RiscAsm.Assembly
import RiscAsm.Proofs.DecodingTable
import RiscAsm.Proofs.OperandForms
import RiscAsm.Proofs.RepackedFields

namespace RiscAsm

namespace Mips

/-- The number in the lowest sixteen bits, with or without sign. -/
def IType.number (signed : Bool) (f : IType) : Int := if signed then f.signedImm else f.imm

/-- The numbers that the lowest sixteen bits can hold, with or without sign. -/
def Fits (signed : Bool) (value : Int) : Prop :=
  if signed then -32768 ≤ value ∧ value ≤ 32767 else 0 ≤ value ∧ value ≤ 65535

instance {signed : Bool} {value : Int} : Decidable (Fits signed value) :=
  inferInstanceAs (Decidable (if signed then -32768 ≤ value ∧ value ≤ 32767 else 0 ≤ value ∧ value ≤ 65535))

/-- What the fields of a word say in one of the three layouts. -/
inductive Fields where
  | register (f : RType)
  | immediate (signed : Bool) (opcode rs rt : Nat) (value : Int)
  | jump (f : JType)

namespace Fields

/-- Whether unpacking a word gives these fields. -/
def HeldBy (word : Word) : Fields → Prop
  | register f => opcodeOf word = 0 ∧ RType.unpack word = f
  | immediate signed opcode rs rt value =>
    let f := IType.unpack word
    f.opcode = opcode ∧ f.rs = rs ∧ f.rt = rt ∧ f.number signed = value
  | jump f => JType.unpack word = f

def word : Fields → Word
  | register f => f.pack
  | immediate _ opcode rs rt value => IType.pack { opcode, rs, rt, imm := (BitVec.ofInt 16 value).toNat }
  | jump f => f.pack

end Fields

/-- How many words a target lies after the instruction that follows a branch. -/
def wordsTo (target address : Word) : Int := (target.toNat / 4 : Nat) - ((address.toNat / 4 : Nat) + 1)

/-- The operands that a format is written with, and the fields that they are put into. Fields that are not mentioned
are zero. -/
inductive Format.Accepts (labels : LabelTable) (address : Word) : Format → List Text → Fields → Prop
  | alu {funct : Nat} {a b c : Text} {rd rs rt : Nat} (ofRd : Arch.mips.register? a = some rd)
      (ofRs : Arch.mips.register? b = some rs) (ofRt : Arch.mips.register? c = some rt) :
      Accepts labels address (.alu funct) [a, b, c] (.register { rs, rt, rd, funct })
  | shift {funct : Nat} {a b c : Text} {rd rt shamt : Nat} (ofRd : Arch.mips.register? a = some rd)
      (ofRt : Arch.mips.register? b = some rt) (amount : Numeral.literal? c = some (shamt : Int)) (small : shamt ≤ 31) :
      Accepts labels address (.shift funct) [a, b, c] (.register { rt, rd, shamt, funct })
  | jumpRegister {funct : Nat} {a : Text} {rs : Nat} (ofRs : Arch.mips.register? a = some rs) :
      Accepts labels address (.jumpRegister funct) [a] (.register { rs, funct })
  | jumpLink {funct : Nat} {a : Text} {rs : Nat} (ofRs : Arch.mips.register? a = some rs) :
      Accepts labels address (.jumpLinkRegister funct) [a] (.register { rs, rd := 31, funct })
  | jumpLinkTo {funct : Nat} {a b : Text} {rd rs : Nat} (ofRd : Arch.mips.register? a = some rd)
      (ofRs : Arch.mips.register? b = some rs) :
      Accepts labels address (.jumpLinkRegister funct) [a, b] (.register { rs, rd, funct })
  | aluImmediate {opcode : Nat} {signed : Bool} {a b c : Text} {rt rs : Nat} {value : Int}
      (ofRt : Arch.mips.register? a = some rt) (ofRs : Arch.mips.register? b = some rs)
      (reads : Numeral.literal? c = some value) (fits : Fits signed value) :
      Accepts labels address (.aluImmediate opcode signed) [a, b, c] (.immediate signed opcode rs rt value)
  | loadUpper {opcode : Nat} {a b : Text} {rt : Nat} {value : Int} (ofRt : Arch.mips.register? a = some rt)
      (reads : Numeral.literal? b = some value) (fits : Fits false value) :
      Accepts labels address (.loadUpper opcode) [a, b] (.immediate false opcode 0 rt value)
  | memory {opcode : Nat} {a b : Text} {rt rs : Nat} {offset : Int} (ofRt : Arch.mips.register? a = some rt)
      (placed : Operand.Places .mips b offset rs) (fits : Fits true offset) :
      Accepts labels address (.memory opcode) [a, b] (.immediate true opcode rs rt offset)
  | branch {opcode : Nat} {a b c : Text} {rs rt : Nat} {target : Word} (ofRs : Arch.mips.register? a = some rs)
      (ofRt : Arch.mips.register? b = some rt) (found : labels.target c = .ok target) (aligned : target.toNat % 4 = 0)
      (fits : Fits true (wordsTo target address)) :
      Accepts labels address (.branch opcode) [a, b, c] (.immediate true opcode rs rt (wordsTo target address))
  | branchZero {opcode rt : Nat} {a b : Text} {rs : Nat} {target : Word} (ofRs : Arch.mips.register? a = some rs)
      (found : labels.target b = .ok target) (aligned : target.toNat % 4 = 0)
      (fits : Fits true (wordsTo target address)) :
      Accepts labels address (.branchZero opcode rt) [a, b] (.immediate true opcode rs rt (wordsTo target address))
  | jump {opcode : Nat} {a : Text} {target : Word} (found : labels.target a = .ok target)
      (aligned : target.toNat % 4 = 0) (below : target.toNat < 2 ^ 28) :
      Accepts labels address (.jump opcode) [a] (.jump { opcode, target := target.toNat / 4 })

variable {labels : LabelTable} {address word : Word} {mnemonic : Text} {ops : List Text} {format : Format}
  {fields : Fields} {value : Int} {imm : Nat}

theorem signedBits?_eq_some_iff :
    signedBits? 16 value = some imm ↔ Fits true value ∧ (BitVec.ofInt 16 value).toNat = imm := by
  simp only [signedBits?, Fits, if_true, Option.ite_none_right_eq_some, Option.some.injEq]
  omega

theorem unsignedBits?_eq_some_iff :
    unsignedBits? 16 value = some imm ↔ Fits false value ∧ (BitVec.ofInt 16 value).toNat = imm := by
  simp only [unsignedBits?, Fits, Bool.false_eq_true, if_false, Option.ite_none_right_eq_some, Option.some.injEq,
    BitVec.toNat_ofInt]
  omega

theorem branchBits?_eq_some_iff {target : Word} :
    branchBits? address target = some imm ↔ target.toNat % 4 = 0 ∧ Fits true (wordsTo target address) ∧
      (BitVec.ofInt 16 (wordsTo target address)).toNat = imm := by
  simp only [branchBits?, Option.ite_none_right_eq_some, signedBits?_eq_some_iff, wordsTo]

/-- Operands of the right shape and in range are encoded, in the word that packs their fields. -/
theorem encode_of_accepts (accepted : format.Accepts labels address ops fields) :
    encode labels address mnemonic ops format = .ok fields.word := by
  cases accepted with
  | alu ofRd ofRs ofRt => simp [encode, ofRd, ofRs, ofRt, Fields.word]
  | @shift funct a b c rd rt shamt ofRd ofRt amount small =>
    have below : unsignedBits? 5 shamt = some shamt := unsignedBits?_of_lt (Nat.lt_succ_of_le small)
    simp [encode, ofRd, ofRt, amount, below, Fields.word]
  | jumpRegister ofRs => simp [encode, ofRs, Fields.word]
  | jumpLink ofRs => simp [encode, ofRs, Fields.word, Arch.linkRegister]
  | jumpLinkTo ofRd ofRs => simp [encode, ofRd, ofRs, Fields.word]
  | @aluImmediate opcode signed a b c rt rs value ofRt ofRs reads fits =>
    cases signed with
    | true => simp [encode, ofRt, ofRs, reads, signedBits?_eq_some_iff, fits, Fields.word]
    | false => simp [encode, ofRt, ofRs, reads, unsignedBits?_eq_some_iff, fits, Fields.word]
  | loadUpper ofRt reads fits => simp [encode, ofRt, reads, unsignedBits?_eq_some_iff, fits, Fields.word]
  | memory ofRt placed fits =>
    simp [encode, ofRt, Operand.memory_eq_ok_iff.mpr placed, signedBits?_eq_some_iff, fits, Fields.word]
  | branch ofRs ofRt found aligned fits =>
    simp [encode, ofRs, ofRt, branchOffset_eq_ok, found, branchBits?_eq_some_iff, aligned, fits, Fields.word]
  | branchZero ofRs found aligned fits =>
    simp [encode, ofRs, branchOffset_eq_ok, found, branchBits?_eq_some_iff, aligned, fits, Fields.word]
  | @jump opcode a target found aligned below =>
    have index : unsignedBits? 26 (target.toNat / 4 : Nat) = some (target.toNat / 4) := unsignedBits?_of_lt (by omega)
    push_cast at index
    simp [encode, alignedTarget_eq_ok, found, aligned, index, Fields.word]

/-- Only operands of the right shape and in range are encoded. -/
theorem accepts_of_encode (encoded : encode labels address mnemonic ops format = .ok word) :
    ∃ fields, format.Accepts labels address ops fields ∧ fields.word = word := by
  cases format with
  | alu funct =>
    simp only [encode, bind_eq_ok, pure_eq_ok, Operand.three_eq_ok, Operand.register_eq_ok] at encoded
    obtain ⟨_, rfl, rd, ofRd, rs, ofRs, rt, ofRt, rfl⟩ := encoded
    exact ⟨_, .alu ofRd ofRs ofRt, rfl⟩
  | shift funct =>
    simp only [encode, bind_eq_ok, pure_eq_ok, Operand.three_eq_ok, Operand.immediate_eq_ok,
      Operand.unsignedField_eq_ok, Operand.register_eq_ok] at encoded
    obtain ⟨_, rfl, amount, reads, shamt, fits, rd, ofRd, rt, ofRt, rfl⟩ := encoded
    obtain ⟨rfl, below⟩ := unsignedBits?_eq_some.mp fits
    exact ⟨_, .shift ofRd ofRt reads (Nat.le_of_lt_succ below), rfl⟩
  | jumpRegister funct =>
    simp only [encode, bind_eq_ok, pure_eq_ok, Operand.one_eq_ok, Operand.register_eq_ok] at encoded
    obtain ⟨_, rfl, rs, ofRs, rfl⟩ := encoded
    exact ⟨_, .jumpRegister ofRs, rfl⟩
  | jumpLinkRegister funct =>
    rcases ops with _ | ⟨first, _ | ⟨second, _ | ⟨third, rest⟩⟩⟩
    · cases encoded
    · simp only [encode, bind_eq_ok, pure_eq_ok, Operand.register_eq_ok] at encoded
      obtain ⟨rs, ofRs, rfl⟩ := encoded
      exact ⟨_, .jumpLink ofRs, rfl⟩
    · simp only [encode, bind_eq_ok, pure_eq_ok, Operand.register_eq_ok] at encoded
      obtain ⟨rd, ofRd, rs, ofRs, rfl⟩ := encoded
      exact ⟨_, .jumpLinkTo ofRd ofRs, rfl⟩
    · cases encoded
  | aluImmediate opcode signed =>
    cases signed with
    | true =>
      simp only [encode, if_true, bind_eq_ok, pure_eq_ok, Operand.three_eq_ok, Operand.immediate_eq_ok,
        Operand.signedField_eq_ok (show 0 < 16 by decide), signedBits?_eq_some_iff, Operand.register_eq_ok] at encoded
      obtain ⟨_, rfl, value, reads, imm, ⟨fits, rfl⟩, rs, ofRs, rt, ofRt, rfl⟩ := encoded
      exact ⟨_, .aluImmediate ofRt ofRs reads fits, rfl⟩
    | false =>
      simp only [encode, Bool.false_eq_true, if_false, bind_eq_ok, pure_eq_ok, Operand.three_eq_ok,
        Operand.immediate_eq_ok, Operand.unsignedField_eq_ok, unsignedBits?_eq_some_iff,
        Operand.register_eq_ok] at encoded
      obtain ⟨_, rfl, value, reads, imm, ⟨fits, rfl⟩, rs, ofRs, rt, ofRt, rfl⟩ := encoded
      exact ⟨_, .aluImmediate ofRt ofRs reads fits, rfl⟩
  | loadUpper opcode =>
    simp only [encode, bind_eq_ok, pure_eq_ok, Operand.two_eq_ok, Operand.immediate_eq_ok,
      Operand.unsignedField_eq_ok, unsignedBits?_eq_some_iff, Operand.register_eq_ok] at encoded
    obtain ⟨_, rfl, value, reads, imm, ⟨fits, rfl⟩, rt, ofRt, rfl⟩ := encoded
    exact ⟨_, .loadUpper ofRt reads fits, rfl⟩
  | memory opcode =>
    simp only [encode, bind_eq_ok, pure_eq_ok, Operand.two_eq_ok,
      Operand.signedField_eq_ok (show 0 < 16 by decide), signedBits?_eq_some_iff, Operand.register_eq_ok] at encoded
    obtain ⟨_, rfl, place, located, imm, ⟨fits, rfl⟩, rt, ofRt, rfl⟩ := encoded
    exact ⟨_, .memory ofRt (Operand.memory_eq_ok_iff.mp located) fits, rfl⟩
  | branch opcode =>
    simp only [encode, bind_eq_ok, pure_eq_ok, Operand.three_eq_ok, branchOffset_eq_ok, branchBits?_eq_some_iff,
      Operand.register_eq_ok] at encoded
    obtain ⟨_, rfl, imm, ⟨target, found, aligned, fits, rfl⟩, rs, ofRs, rt, ofRt, rfl⟩ := encoded
    exact ⟨_, .branch ofRs ofRt found aligned fits, rfl⟩
  | branchZero opcode rt =>
    simp only [encode, bind_eq_ok, pure_eq_ok, Operand.two_eq_ok, branchOffset_eq_ok, branchBits?_eq_some_iff,
      Operand.register_eq_ok] at encoded
    obtain ⟨_, rfl, imm, ⟨target, found, aligned, fits, rfl⟩, rs, ofRs, rfl⟩ := encoded
    exact ⟨_, .branchZero ofRs found aligned fits, rfl⟩
  | jump opcode =>
    simp only [encode, bind_eq_ok, pure_eq_ok, Operand.one_eq_ok, alignedTarget_eq_ok,
      Operand.unsignedField_eq_ok] at encoded
    obtain ⟨_, rfl, target, ⟨found, aligned⟩, index, fits, rfl⟩ := encoded
    obtain ⟨same, below⟩ := unsignedBits?_eq_some.mp fits
    rw [Int.natCast_inj.mp same] at below ⊢
    exact ⟨_, .jump found aligned (by omega), rfl⟩
  | reserved => cases encoded

namespace Fields

theorem heldBy_register {f : RType} (rs : f.rs < 32) (rt : f.rt < 32) (rd : f.rd < 32) (shamt : f.shamt < 32)
    (funct : f.funct < 64) : (register f).HeldBy (register f).word :=
  ⟨RType.opcodeOf_pack f, (RType.unpack_pack_of_lt rs rt rd shamt funct).1⟩

theorem heldBy_immediate {signed : Bool} {opcode rs rt : Nat} (ofOpcode : opcode < 64) (ofRs : rs < 32) (ofRt : rt < 32)
    (fits : Fits signed value) :
    (immediate signed opcode rs rt value).HeldBy (immediate signed opcode rs rt value).word := by
  have bound : (BitVec.ofInt 16 value).toNat < 2 ^ 16 := BitVec.isLt _
  have unpacked := (IType.unpack_pack_of_lt (f := { opcode, rs, rt, imm := (BitVec.ofInt 16 value).toNat }) ofOpcode
    ofRs ofRt bound).1
  have number : IType.number signed { opcode, rs, rt, imm := (BitVec.ofInt 16 value).toNat } = value := by
    cases signed with
    | true => exact (signedImm_of_bits (signedBits?_eq_some_iff.mpr ⟨fits, rfl⟩)).2
    | false => exact (unsignedBits?_eq_some.mp (unsignedBits?_eq_some_iff.mpr ⟨fits, rfl⟩)).1
  simp only [HeldBy, word, unpacked, number, and_self]

/-- The fields that operands are put into are read back from the word. -/
theorem heldBy_word (accepted : format.Accepts labels address ops fields) (inRange : format.InRange) :
    fields.HeldBy fields.word := by
  cases accepted with
  | alu ofRd ofRs ofRt =>
    exact heldBy_register (Arch.register?_lt ofRs) (Arch.register?_lt ofRt) (Arch.register?_lt ofRd) (Nat.succ_pos _)
      inRange
  | shift ofRd ofRt amount small =>
    exact heldBy_register (Nat.succ_pos _) (Arch.register?_lt ofRt) (Arch.register?_lt ofRd) (Nat.lt_succ_of_le small)
      inRange
  | jumpRegister ofRs =>
    exact heldBy_register (Arch.register?_lt ofRs) (Nat.succ_pos _) (Nat.succ_pos _) (Nat.succ_pos _) inRange
  | jumpLink ofRs =>
    exact heldBy_register (Arch.register?_lt ofRs) (Nat.succ_pos _) (Nat.lt_succ_self 31) (Nat.succ_pos _) inRange
  | jumpLinkTo ofRd ofRs =>
    exact heldBy_register (Arch.register?_lt ofRs) (Nat.succ_pos _) (Arch.register?_lt ofRd) (Nat.succ_pos _) inRange
  | aluImmediate ofRt ofRs reads fits =>
    exact heldBy_immediate inRange (Arch.register?_lt ofRs) (Arch.register?_lt ofRt) fits
  | loadUpper ofRt reads fits => exact heldBy_immediate inRange (Nat.succ_pos _) (Arch.register?_lt ofRt) fits
  | memory ofRt placed fits =>
    exact heldBy_immediate inRange placed.lt (Arch.register?_lt ofRt) fits
  | branch ofRs ofRt found aligned fits =>
    exact heldBy_immediate inRange (Arch.register?_lt ofRs) (Arch.register?_lt ofRt) fits
  | branchZero ofRs found aligned fits =>
    exact heldBy_immediate inRange.1 (Arch.register?_lt ofRs) inRange.2 fits
  | @jump opcode a target found aligned below =>
    have small : target.toNat / 4 < 2 ^ 26 := by omega
    exact (JType.unpack_pack_of_lt (f := { opcode, target := target.toNat / 4 }) inRange small).1

/-- No other word holds the same fields. -/
theorem word_eq_of_heldBy (held : fields.HeldBy word) : fields.word = word := by
  cases fields with
  | register f =>
    obtain ⟨special, rfl⟩ := held
    exact RType.pack_unpack_of_opcodeOf special
  | immediate signed opcode rs rt value =>
    obtain ⟨rfl, rfl, rfl, rfl⟩ := held
    have bound := (IType.unpack_lt word).2.2
    -- The number, read with or without sign, comes from the bits that it is packed into.
    have bits : (BitVec.ofInt 16 ((IType.unpack word).number signed)).toNat = (IType.unpack word).imm := by
      cases signed with
      | true =>
        have same : (IType.unpack word).number true = (BitVec.ofNat 16 (IType.unpack word).imm).toInt :=
          IType.signedImm_eq _
        rw [same, BitVec.ofInt_toInt, BitVec.toNat_ofNat, Nat.mod_eq_of_lt bound]
      | false =>
        have same : (IType.unpack word).number false = (IType.unpack word).imm := rfl
        rw [same, BitVec.ofInt_natCast, BitVec.toNat_ofNat, Nat.mod_eq_of_lt bound]
    have whole := IType.pack_unpack word
    simp only [Fields.word, bits]
    exact whole
  | jump f =>
    cases held
    exact JType.pack_unpack word

end Fields

end Mips

/-- A MIPS instruction of the table is encoded exactly if its operands have the shape that its format accepts, with
numbers and targets in range. Then unpacking its word gives the registers, the number and the opcode fields that they
stand for, and zeros elsewhere. -/
theorem PlacedInstr.encodes_mips_exactly {instr : PlacedInstr} {format : Mips.Format}
    (listed : (instr.mnemonic, format) ∈ Mips.formats) (own : instr.format = .mips format) (labels : LabelTable) :
    (∀ word, instr.encode .mips labels = .ok word ↔
      ∃ fields, format.Accepts labels instr.address (Operand.split instr.operands) fields ∧ fields.HeldBy word) ∧
    (∀ fields, format.Accepts labels instr.address (Operand.split instr.operands) fields →
      ∃ word, instr.encode .mips labels = .ok word ∧ fields.HeldBy word) ∧
    (format = .reserved → instr.encode .mips labels = .error (.unsupportedFormat instr.mnemonic)) := by
  have inRange := Mips.inRange_of_mem listed
  have opened : instr.encode .mips labels =
      Mips.encode labels instr.address instr.mnemonic (Operand.split instr.operands) format := by
    simp only [encode, own]
  rw [opened]
  refine ⟨fun word => ⟨fun encoded => ?_, ?_⟩, fun fields accepted => ?_, ?_⟩
  · obtain ⟨fields, accepted, rfl⟩ := Mips.accepts_of_encode encoded
    exact ⟨fields, accepted, Mips.Fields.heldBy_word accepted inRange⟩
  · rintro ⟨fields, accepted, held⟩
    rw [Mips.encode_of_accepts accepted, Mips.Fields.word_eq_of_heldBy held]
  · exact ⟨fields.word, Mips.encode_of_accepts accepted, Mips.Fields.heldBy_word accepted inRange⟩
  · rintro rfl
    rfl

/-- A branch three words back from the instruction after it. -/
theorem PlacedInstr.encodes_mips_exactly_branch :
    let branch : PlacedInstr := ⟨⟨"beq".toList, "$t0, $zero, loop".toList, .mips (.branch 0x04), 3, none⟩, 8#32⟩
    let loop : LabelTable := { labels := [⟨"loop".toList, 0#32, 1⟩] }
    (branch.mnemonic, .branch 0x04) ∈ Mips.formats ∧ branch.format = .mips (.branch 0x04) ∧
      ∃ word, branch.encode .mips loop = .ok word ∧ (Mips.Fields.immediate true 0x04 8 0 (-3)).HeldBy word := by
  intro branch loop
  have listed : (branch.mnemonic, .branch 0x04) ∈ Mips.formats := by decide
  have back : Mips.wordsTo 0#32 branch.address = -3 := by decide
  have accepted : (Mips.Format.branch 0x04).Accepts loop branch.address ["$t0".toList, "$zero".toList, "loop".toList]
      (.immediate true 0x04 8 0 (-3)) := by
    rw [← back]
    exact .branch rfl rfl rfl rfl (by decide)
  exact ⟨listed, rfl, (encodes_mips_exactly listed rfl loop).2.1 _ accepted⟩

end RiscAsm
