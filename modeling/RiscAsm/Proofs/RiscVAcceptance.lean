import RiscAsm.Assembly
import RiscAsm.Proofs.DecodingTable
import RiscAsm.Proofs.OperandForms
import RiscAsm.Proofs.RepackedFields

namespace RiscAsm

namespace RiscV

/-- What the fields of a word say in one of the six layouts. -/
inductive Fields where
  | register (f : RType)
  | immediate (f : IType)
  | store (f : SType)
  | branch (f : BType)
  | upper (f : UType)
  | jump (f : JType)

namespace Fields

/-- Whether unpacking a word gives these fields. -/
def HeldBy (word : Word) : Fields → Prop
  | register f => RType.unpack word = f
  | immediate f => IType.unpack word = f
  | store f => SType.unpack word = f
  | branch f => BType.unpack word = f
  | upper f => UType.unpack word = f
  | jump f => JType.unpack word = f

def word : Fields → Word
  | register f => f.pack
  | immediate f => f.pack
  | store f => f.pack
  | branch f => f.pack
  | upper f => f.pack
  | jump f => f.pack

end Fields

/-- The numbers of the twelve-bit immediates. -/
def Short (value : Int) : Prop := -2048 ≤ value ∧ value ≤ 2047

instance {value : Int} : Decidable (Short value) := inferInstanceAs (Decidable (-2048 ≤ value ∧ value ≤ 2047))

/-- The bytes from an instruction to its target, counted without wrapping around. -/
def bytesTo (target address : Word) : Int := target.toNat - address.toNat

/-- The operands that a format is written with, and the fields that they are put into. A jump that names no link
register links into `x1`, and a register jump without an offset has offset zero. -/
inductive Format.Accepts (labels : LabelTable) (address : Word) : Format → List Text → Fields → Prop
  | register {funct3 funct7 : Nat} {a b c : Text} {rd rs1 rs2 : Nat} (ofRd : Arch.riscv.register? a = some rd)
      (ofRs1 : Arch.riscv.register? b = some rs1) (ofRs2 : Arch.riscv.register? c = some rs2) :
      Accepts labels address (.register funct3 funct7) [a, b, c]
        (.register { funct7, rs2, rs1, funct3, rd, opcode := 0x33 })
  | aluImmediate {funct3 : Nat} {a b c : Text} {rd rs1 : Nat} {imm : Int} (ofRd : Arch.riscv.register? a = some rd)
      (ofRs1 : Arch.riscv.register? b = some rs1) (reads : Numeral.literal? c = some imm) (short : Short imm) :
      Accepts labels address (.aluImmediate funct3) [a, b, c] (.immediate { imm, rs1, funct3, rd, opcode := 0x13 })
  | load {funct3 : Nat} {a b : Text} {rd rs1 : Nat} {imm : Int} (ofRd : Arch.riscv.register? a = some rd)
      (placed : Operand.Places .riscv b imm rs1) (short : Short imm) :
      Accepts labels address (.load funct3) [a, b] (.immediate { imm, rs1, funct3, rd, opcode := 0x03 })
  | store {funct3 : Nat} {a b : Text} {rs2 rs1 : Nat} {imm : Int} (ofRs2 : Arch.riscv.register? a = some rs2)
      (placed : Operand.Places .riscv b imm rs1) (short : Short imm) :
      Accepts labels address (.store funct3) [a, b] (.store { imm, rs2, rs1, funct3, opcode := 0x23 })
  | jumpRegister {a : Text} {rs1 : Nat} (ofRs1 : Arch.riscv.register? a = some rs1) :
      Accepts labels address .jumpLinkRegister [a] (.immediate { imm := 0, rs1, rd := 1, opcode := 0x67 })
  | jumpLinkRegister {a b : Text} {rd rs1 : Nat} (ofRd : Arch.riscv.register? a = some rd)
      (ofRs1 : Arch.riscv.register? b = some rs1) :
      Accepts labels address .jumpLinkRegister [a, b] (.immediate { imm := 0, rs1, rd, opcode := 0x67 })
  | jumpLinkNumber {a b c : Text} {rd rs1 : Nat} {imm : Int} (ofRd : Arch.riscv.register? a = some rd)
      (ofRs1 : Arch.riscv.register? b = some rs1) (reads : Numeral.literal? c = some imm) (short : Short imm) :
      Accepts labels address .jumpLinkRegister [a, b, c] (.immediate { imm, rs1, rd, opcode := 0x67 })
  | jumpLinkMemory {a b : Text} {rd rs1 : Nat} {imm : Int} (ofRd : Arch.riscv.register? a = some rd)
      (placed : Operand.Places .riscv b imm rs1) (short : Short imm) :
      Accepts labels address .jumpLinkRegister [a, b] (.immediate { imm, rs1, rd, opcode := 0x67 })
  | branch {funct3 : Nat} {a b c : Text} {rs1 rs2 : Nat} {target : Word} (ofRs1 : Arch.riscv.register? a = some rs1)
      (ofRs2 : Arch.riscv.register? b = some rs2) (found : labels.target c = .ok target)
      (even : bytesTo target address % 2 = 0)
      (range : -4096 ≤ bytesTo target address ∧ bytesTo target address ≤ 4094) :
      Accepts labels address (.branch funct3) [a, b, c]
        (.branch { imm := bytesTo target address, rs2, rs1, funct3, opcode := 0x63 })
  | upper {opcode : Nat} {a b : Text} {rd imm : Nat} (ofRd : Arch.riscv.register? a = some rd)
      (reads : Numeral.literal? b = some (imm : Int)) (range : imm ≤ 2 ^ 20 - 1) :
      Accepts labels address (.upper opcode) [a, b] (.upper { imm, rd, opcode })
  | jump {a : Text} {target : Word} (found : labels.target a = .ok target) (even : bytesTo target address % 2 = 0)
      (range : -2 ^ 20 ≤ bytesTo target address ∧ bytesTo target address ≤ 2 ^ 20 - 2) :
      Accepts labels address .jumpLink [a] (.jump { imm := bytesTo target address, rd := 1, opcode := 0x6f })
  | jumpLink {a b : Text} {rd : Nat} {target : Word} (ofRd : Arch.riscv.register? a = some rd)
      (found : labels.target b = .ok target) (even : bytesTo target address % 2 = 0)
      (range : -2 ^ 20 ≤ bytesTo target address ∧ bytesTo target address ≤ 2 ^ 20 - 2) :
      Accepts labels address .jumpLink [a, b] (.jump { imm := bytesTo target address, rd, opcode := 0x6f })

variable {labels : LabelTable} {address word : Word} {mnemonic : Text} {ops : List Text} {format : Format}
  {fields : Fields} {value imm : Int} {width : Nat}

theorem toInt_eq_iff_short : (BitVec.ofInt 12 value).toInt = value ↔ Short value := by
  rw [toInt_ofInt_eq_iff (by decide), Short]
  omega

theorem immediate12_eq_ok_iff : immediate12 value = .ok imm ↔ imm = value ∧ Short value := by
  rw [immediate12_eq_ok, fits?_eq_some (by decide), toInt_eq_iff_short]

theorem distance?_eq_some_iff (positive : 0 < width) {target : Word} :
    distance? width address target = some imm ↔ imm = bytesTo target address ∧ imm % 2 = 0 ∧
      -2 ^ (width - 1) ≤ imm ∧ imm < 2 ^ (width - 1) := by
  simp only [distance?, Option.ite_none_right_eq_some, fits?_eq_some positive, toInt_ofInt_eq_iff positive]
  constructor
  · rintro ⟨even, rfl, range⟩
    exact ⟨rfl, even, range⟩
  · rintro ⟨rfl, even, range⟩
    exact ⟨even, rfl, range⟩

theorem branchDistance_eq_ok_iff {token : Text} :
    pcRelative labels address 13 token = .ok imm ↔ ∃ target, labels.target token = .ok target ∧
      imm = bytesTo target address ∧ imm % 2 = 0 ∧ -4096 ≤ imm ∧ imm ≤ 4094 := by
  rw [pcRelative_eq_ok (by decide)]
  refine exists_congr fun target => and_congr_right fun _ => ?_
  -- The greatest even distance below `2 ^ 12` is two below it.
  rw [distance?_eq_some_iff (by decide)]
  omega

theorem jumpDistance_eq_ok_iff {token : Text} :
    pcRelative labels address 21 token = .ok imm ↔ ∃ target, labels.target token = .ok target ∧
      imm = bytesTo target address ∧ imm % 2 = 0 ∧ -2 ^ 20 ≤ imm ∧ imm ≤ 2 ^ 20 - 2 := by
  rw [pcRelative_eq_ok (by decide)]
  refine exists_congr fun target => and_congr_right fun _ => ?_
  rw [distance?_eq_some_iff (by decide)]
  omega

/-- Operands of the right shape and in range are encoded, in the word that packs their fields. -/
theorem encode_of_accepts (accepted : format.Accepts labels address ops fields) :
    encode labels address mnemonic ops format = .ok fields.word := by
  cases accepted with
  | register ofRd ofRs1 ofRs2 => simp [encode, ofRd, ofRs1, ofRs2, Fields.word, opRegister]
  | aluImmediate ofRd ofRs1 reads short =>
    simp [encode, ofRd, ofRs1, reads, immediate12_eq_ok_iff, short, Fields.word, opImmediate]
  | load ofRd placed short =>
    simp [encode, ofRd, Operand.memory_eq_ok_iff.mpr placed, immediate12_eq_ok_iff, short, Fields.word, opLoad]
  | store ofRs2 placed short =>
    simp [encode, ofRs2, Operand.memory_eq_ok_iff.mpr placed, immediate12_eq_ok_iff, short, Fields.word, opStore]
  | jumpRegister ofRs1 =>
    simp [encode, jumpOperands, ofRs1, immediate12_eq_ok_iff, Short, Fields.word, Arch.linkRegister, opJalr]
  | jumpLinkRegister ofRd ofRs1 =>
    simp [encode, jumpOperands, Operand.isMemory_of_register? ofRs1, ofRd, ofRs1, immediate12_eq_ok_iff, Short,
      Fields.word, opJalr]
  | jumpLinkNumber ofRd ofRs1 reads short =>
    simp [encode, jumpOperands, ofRd, ofRs1, reads, immediate12_eq_ok_iff, short, Fields.word, opJalr]
  | jumpLinkMemory ofRd placed short =>
    simp [encode, jumpOperands, Operand.isMemory_of_places placed, Operand.memory_eq_ok_iff.mpr placed, ofRd,
      immediate12_eq_ok_iff, short, Fields.word, opJalr]
  | branch ofRs1 ofRs2 found even range =>
    have near : pcRelative labels address 13 _ = .ok _ := branchDistance_eq_ok_iff.mpr ⟨_, found, rfl, even, range⟩
    simp [encode, ofRs1, ofRs2, near, Fields.word, opBranch]
  | @upper opcode a b rd imm ofRd reads range =>
    have below : unsignedBits? 20 imm = some imm := unsignedBits?_of_lt (Nat.lt_succ_of_le range)
    simp [encode, ofRd, reads, below, Fields.word]
  | jump found even range =>
    have near : pcRelative labels address 21 _ = .ok _ := jumpDistance_eq_ok_iff.mpr ⟨_, found, rfl, even, range⟩
    simp [encode, near, Fields.word, Arch.linkRegister, opJal]
  | jumpLink ofRd found even range =>
    have near : pcRelative labels address 21 _ = .ok _ := jumpDistance_eq_ok_iff.mpr ⟨_, found, rfl, even, range⟩
    simp [encode, ofRd, near, Fields.word, opJal]

/-- Only operands of the right shape and in range are encoded. -/
theorem accepts_of_encode (encoded : encode labels address mnemonic ops format = .ok word) :
    ∃ fields, format.Accepts labels address ops fields ∧ fields.word = word := by
  cases format with
  | register funct3 funct7 =>
    simp only [encode, bind_eq_ok, pure_eq_ok, Operand.three_eq_ok, Operand.register_eq_ok] at encoded
    obtain ⟨_, rfl, rs2, ofRs2, rs1, ofRs1, rd, ofRd, rfl⟩ := encoded
    exact ⟨_, .register ofRd ofRs1 ofRs2, rfl⟩
  | aluImmediate funct3 =>
    simp only [encode, bind_eq_ok, pure_eq_ok, Operand.three_eq_ok, Operand.immediate_eq_ok, immediate12_eq_ok_iff,
      Operand.register_eq_ok] at encoded
    obtain ⟨_, rfl, value, reads, _, ⟨rfl, short⟩, rs1, ofRs1, rd, ofRd, rfl⟩ := encoded
    exact ⟨_, .aluImmediate ofRd ofRs1 reads short, rfl⟩
  | load funct3 =>
    simp only [encode, bind_eq_ok, pure_eq_ok, Operand.two_eq_ok, immediate12_eq_ok_iff,
      Operand.register_eq_ok] at encoded
    obtain ⟨_, rfl, place, located, _, ⟨rfl, short⟩, rd, ofRd, rfl⟩ := encoded
    exact ⟨_, .load ofRd (Operand.memory_eq_ok_iff.mp located) short, rfl⟩
  | jumpLinkRegister =>
    simp only [encode, bind_eq_ok, pure_eq_ok, immediate12_eq_ok_iff] at encoded
    obtain ⟨⟨rd, rs1, offset⟩, read, _, ⟨rfl, short⟩, rfl⟩ := encoded
    rcases ops with _ | ⟨first, _ | ⟨second, _ | ⟨third, _ | ⟨fourth, rest⟩⟩⟩⟩
    · cases read
    · simp only [jumpOperands, bind_eq_ok, pure_eq_ok, Operand.register_eq_ok, Prod.mk.injEq] at read
      obtain ⟨_, ofRs1, rfl, rfl, rfl⟩ := read
      exact ⟨_, .jumpRegister ofRs1, rfl⟩
    · -- With two operands the parenthesis decides; no register is written with one.
      cases isMemory : Operand.isMemory second with
      | true =>
        simp only [jumpOperands, isMemory, if_true, bind_eq_ok, pure_eq_ok, Operand.register_eq_ok,
          Prod.mk.injEq] at read
        obtain ⟨⟨_, _⟩, located, _, ofRd, rfl, rfl, rfl⟩ := read
        exact ⟨_, .jumpLinkMemory ofRd (Operand.memory_eq_ok_iff.mp located) short, rfl⟩
      | false =>
        simp only [jumpOperands, isMemory, Bool.false_eq_true, if_false, bind_eq_ok, pure_eq_ok,
          Operand.register_eq_ok, Prod.mk.injEq] at read
        obtain ⟨_, ofRd, _, ofRs1, rfl, rfl, rfl⟩ := read
        exact ⟨_, .jumpLinkRegister ofRd ofRs1, rfl⟩
    · simp only [jumpOperands, bind_eq_ok, pure_eq_ok, Operand.register_eq_ok, Operand.immediate_eq_ok,
        Prod.mk.injEq] at read
      obtain ⟨_, ofRd, _, ofRs1, _, reads, rfl, rfl, rfl⟩ := read
      exact ⟨_, .jumpLinkNumber ofRd ofRs1 reads short, rfl⟩
    · cases read
  | store funct3 =>
    simp only [encode, bind_eq_ok, pure_eq_ok, Operand.two_eq_ok, immediate12_eq_ok_iff,
      Operand.register_eq_ok] at encoded
    obtain ⟨_, rfl, place, located, _, ⟨rfl, short⟩, rs2, ofRs2, rfl⟩ := encoded
    exact ⟨_, .store ofRs2 (Operand.memory_eq_ok_iff.mp located) short, rfl⟩
  | branch funct3 =>
    simp only [encode, bind_eq_ok, pure_eq_ok, Operand.three_eq_ok, branchDistance_eq_ok_iff,
      Operand.register_eq_ok] at encoded
    obtain ⟨_, rfl, _, ⟨target, found, rfl, even, range⟩, rs2, ofRs2, rs1, ofRs1, rfl⟩ := encoded
    exact ⟨_, .branch ofRs1 ofRs2 found even range, rfl⟩
  | upper opcode =>
    simp only [encode, bind_eq_ok, pure_eq_ok, Operand.two_eq_ok, Operand.immediate_eq_ok,
      Operand.unsignedField_eq_ok, Operand.register_eq_ok] at encoded
    obtain ⟨_, rfl, value, reads, imm, fits, rd, ofRd, rfl⟩ := encoded
    obtain ⟨rfl, below⟩ := unsignedBits?_eq_some.mp fits
    exact ⟨_, .upper ofRd reads (Nat.le_pred_of_lt below), rfl⟩
  | jumpLink =>
    rcases ops with _ | ⟨first, _ | ⟨second, _ | ⟨third, rest⟩⟩⟩
    · cases encoded
    · simp only [encode, bind_eq_ok, pure_eq_ok, jumpDistance_eq_ok_iff] at encoded
      obtain ⟨_, ⟨target, found, rfl, even, range⟩, rfl⟩ := encoded
      exact ⟨_, .jump found even range, rfl⟩
    · simp only [encode, bind_eq_ok, pure_eq_ok, jumpDistance_eq_ok_iff, Operand.register_eq_ok] at encoded
      obtain ⟨rd, ofRd, _, ⟨target, found, rfl, even, range⟩, rfl⟩ := encoded
      exact ⟨_, .jumpLink ofRd found even range, rfl⟩
    · cases encoded
  | reserved => cases encoded

namespace Fields

theorem heldBy_immediate {rs1 funct3 rd opcode : Nat} (short : Short imm) (ofRs1 : rs1 < 32) (ofFunct3 : funct3 < 8)
    (ofRd : rd < 32) (ofOpcode : opcode < 128) :
    (immediate { imm, rs1, funct3, rd, opcode }).HeldBy (immediate { imm, rs1, funct3, rd, opcode }).word :=
  (IType.unpack_pack_of_lt (f := { imm, rs1, funct3, rd, opcode }) (toInt_eq_iff_short.mpr short) ofRs1 ofFunct3 ofRd
    ofOpcode).1

theorem heldBy_jump {rd opcode : Nat} (even : imm % 2 = 0) (range : -2 ^ 20 ≤ imm ∧ imm ≤ 2 ^ 20 - 2) (ofRd : rd < 32)
    (ofOpcode : opcode < 128) : (jump { imm, rd, opcode }).HeldBy (jump { imm, rd, opcode }).word := by
  have fits : (BitVec.ofInt 21 imm).toInt = imm := by
    rw [toInt_ofInt_eq_iff (by decide)]
    omega
  exact (JType.unpack_pack_of_lt (f := { imm, rd, opcode }) even fits ofRd ofOpcode).1

/-- The fields that operands are put into are read back from the word. -/
theorem heldBy_word (accepted : format.Accepts labels address ops fields) (inRange : format.InRange) :
    fields.HeldBy fields.word := by
  cases accepted with
  | @register funct3 funct7 a b c rd rs1 rs2 ofRd ofRs1 ofRs2 =>
    have opcode : 0x33 < 128 := by decide
    exact (RType.unpack_pack_of_lt (f := { funct7, rs2, rs1, funct3, rd, opcode := 0x33 }) inRange.2
      (Arch.register?_lt ofRs2) (Arch.register?_lt ofRs1) inRange.1 (Arch.register?_lt ofRd) opcode).1
  | aluImmediate ofRd ofRs1 reads short =>
    exact heldBy_immediate short (Arch.register?_lt ofRs1) inRange (Arch.register?_lt ofRd) (by decide)
  | load ofRd placed short =>
    exact heldBy_immediate short placed.lt inRange (Arch.register?_lt ofRd) (by decide)
  | @store funct3 a b rs2 rs1 imm ofRs2 placed short =>
    have opcode : 0x23 < 128 := by decide
    exact (SType.unpack_pack_of_lt (f := { imm, rs2, rs1, funct3, opcode := 0x23 }) (toInt_eq_iff_short.mpr short)
      (Arch.register?_lt ofRs2) placed.lt inRange opcode).1
  | jumpRegister ofRs1 =>
    exact heldBy_immediate (by decide) (Arch.register?_lt ofRs1) (by decide) (by decide) (by decide)
  | jumpLinkRegister ofRd ofRs1 =>
    exact heldBy_immediate (by decide) (Arch.register?_lt ofRs1) (by decide) (Arch.register?_lt ofRd) (by decide)
  | jumpLinkNumber ofRd ofRs1 reads short =>
    exact heldBy_immediate short (Arch.register?_lt ofRs1) (by decide) (Arch.register?_lt ofRd) (by decide)
  | jumpLinkMemory ofRd placed short =>
    exact heldBy_immediate short placed.lt (by decide) (Arch.register?_lt ofRd) (by decide)
  | @branch funct3 a b c rs1 rs2 target ofRs1 ofRs2 found even range =>
    have opcode : 0x63 < 128 := by decide
    have fits : (BitVec.ofInt 13 (bytesTo target address)).toInt = bytesTo target address := by
      rw [toInt_ofInt_eq_iff (by decide)]
      omega
    exact (BType.unpack_pack_of_lt (f := { imm := bytesTo target address, rs2, rs1, funct3, opcode := 0x63 }) even fits
      (Arch.register?_lt ofRs2) (Arch.register?_lt ofRs1) inRange opcode).1
  | @upper opcode a b rd imm ofRd reads range =>
    exact (UType.unpack_pack_of_lt (f := { imm, rd, opcode }) (Nat.lt_succ_of_le range) (Arch.register?_lt ofRd)
      inRange).1
  | jump found even range => exact heldBy_jump even range (by decide) (by decide)
  | jumpLink ofRd found even range => exact heldBy_jump even range (Arch.register?_lt ofRd) (by decide)

/-- No other word holds the same fields. -/
theorem word_eq_of_heldBy (held : fields.HeldBy word) : fields.word = word := by
  cases fields with
  | register f => cases held; exact RType.pack_unpack word
  | immediate f => cases held; exact IType.pack_unpack word
  | store f => cases held; exact SType.pack_unpack word
  | branch f => cases held; exact BType.pack_unpack word
  | upper f => cases held; exact UType.pack_unpack word
  | jump f => cases held; exact JType.pack_unpack word

end Fields

end RiscV

/-- A RISC-V instruction of the table is encoded exactly if its operands have one of the shapes that its format accepts,
with numbers and distances in range. Then unpacking its word gives the registers, the number and the opcode fields that
they stand for. Spellings of the same fields, such as those of a register jump, give the same word. -/
theorem PlacedInstr.encodes_riscv_exactly {instr : PlacedInstr} {format : RiscV.Format}
    (listed : (instr.mnemonic, format) ∈ RiscV.formats) (own : instr.format = .riscv format) (labels : LabelTable) :
    (∀ word, instr.encode .riscv labels = .ok word ↔
      ∃ fields, format.Accepts labels instr.address (Operand.split instr.operands) fields ∧ fields.HeldBy word) ∧
    (∀ fields, format.Accepts labels instr.address (Operand.split instr.operands) fields →
      ∃ word, instr.encode .riscv labels = .ok word ∧ fields.HeldBy word) ∧
    (∀ (other : PlacedInstr) (others : LabelTable) (fields : RiscV.Fields), other.format = .riscv format →
      format.Accepts labels instr.address (Operand.split instr.operands) fields →
      format.Accepts others other.address (Operand.split other.operands) fields →
      other.encode .riscv others = instr.encode .riscv labels) ∧
    (format = .reserved → instr.encode .riscv labels = .error (.unsupportedFormat instr.mnemonic)) := by
  have inRange := RiscV.inRange_of_mem listed
  have opened {other : PlacedInstr} (same : other.format = .riscv format) (others : LabelTable) :
      other.encode .riscv others =
        RiscV.encode others other.address other.mnemonic (Operand.split other.operands) format := by
    simp only [encode, same]
  rw [opened own]
  refine ⟨fun word => ⟨fun encoded => ?_, ?_⟩, fun fields accepted => ?_, ?_, ?_⟩
  · obtain ⟨fields, accepted, rfl⟩ := RiscV.accepts_of_encode encoded
    exact ⟨fields, accepted, RiscV.Fields.heldBy_word accepted inRange⟩
  · rintro ⟨fields, accepted, held⟩
    rw [RiscV.encode_of_accepts accepted, RiscV.Fields.word_eq_of_heldBy held]
  · exact ⟨fields.word, RiscV.encode_of_accepts accepted, RiscV.Fields.heldBy_word accepted inRange⟩
  · intro other others fields same accepted alike
    rw [opened same, RiscV.encode_of_accepts accepted, RiscV.encode_of_accepts alike]
  · rintro rfl
    rfl

/-- A register jump through `t0`, with and without its link register and offset. -/
theorem PlacedInstr.encodes_riscv_exactly_jalr :
    let brief : PlacedInstr := ⟨⟨"jalr".toList, "t0".toList, .riscv .jumpLinkRegister, 1, none⟩, 0#32⟩
    let full : PlacedInstr := ⟨⟨"jalr".toList, "ra, 0(t0)".toList, .riscv .jumpLinkRegister, 2, none⟩, 4#32⟩
    (brief.mnemonic, .jumpLinkRegister) ∈ RiscV.formats ∧ brief.format = .riscv .jumpLinkRegister ∧
      full.encode .riscv {} = brief.encode .riscv {} ∧
      ∃ word, brief.encode .riscv {} = .ok word ∧
        (RiscV.Fields.immediate { imm := 0, rs1 := 5, rd := 1, opcode := 0x67 }).HeldBy word := by
  intro brief full
  have listed : (brief.mnemonic, .jumpLinkRegister) ∈ RiscV.formats := by decide
  have ofBrief : RiscV.Format.Accepts {} brief.address .jumpLinkRegister ["t0".toList]
      (.immediate { imm := 0, rs1 := 5, rd := 1, opcode := 0x67 }) := .jumpRegister rfl
  have placed : Operand.Places .riscv "0(t0)".toList 0 5 :=
    ⟨"0".toList, "t0".toList, by decide, by decide, .inr rfl, rfl⟩
  have ofFull : RiscV.Format.Accepts {} full.address .jumpLinkRegister ["ra".toList, "0(t0)".toList]
      (.immediate { imm := 0, rs1 := 5, rd := 1, opcode := 0x67 }) := .jumpLinkMemory rfl placed (by decide)
  obtain ⟨_, encoded, alike, _⟩ := encodes_riscv_exactly listed rfl {}
  exact ⟨listed, rfl, alike full {} _ rfl ofBrief ofFull, encoded _ ofBrief⟩

end RiscAsm
