import RiscAsm.Proofs.LabelNames
import RiscAsm.RiscV.Decode
import RiscAsm.RiscV.Encode

namespace RiscAsm.RiscV

namespace Format

/-- The operands that a format is written with; a register jump has other forms too. -/
def slots : Format → List Slot
  | .register _ _ => [.register, .register, .register]
  | .aluImmediate _ => [.register, .register, .number]
  | .load _ | .jumpLinkRegister | .store _ => [.register, .memory]
  | .branch _ => [.register, .register, .target]
  | .upper _ => [.register, .number]
  | .jumpLink => [.register, .target]
  | .reserved => []

/-- What operands denote. A jump without a link register links into the default one, and a register jump without
an offset has offset zero. -/
def read? (labels : LabelTable) (format : Format) (ops : List Text) : Option Meaning :=
  match format, ops with
  | .reserved, _ => none
  | .jumpLinkRegister, [rs1] =>
    (Meaning.read? .riscv labels [.register] [rs1]).map fun m =>
      { registers := Arch.riscv.linkRegister :: m.registers, number := some 0 }
  | .jumpLinkRegister, [rd, base] =>
    if Operand.isMemory base then Meaning.read? .riscv labels [.register, .memory] [rd, base]
    else (Meaning.read? .riscv labels [.register, .register] [rd, base]).map fun m => { m with number := some 0 }
  | .jumpLinkRegister, ops => Meaning.read? .riscv labels [.register, .register, .number] ops
  | .jumpLink, [token] =>
    (Meaning.read? .riscv labels [.target] [token]).map fun m => { m with registers := [Arch.riscv.linkRegister] }
  | format, ops => Meaning.read? .riscv labels format.slots ops

theorem read?_lt {labels : LabelTable} {format : Format} {ops : List Text} {m : Meaning}
    (read : format.read? labels ops = some m) : ∀ n ∈ m.registers, n < 32 := by
  have link : Arch.riscv.linkRegister < 32 := by decide
  unfold read? at read
  split at read
  · cases read
  · obtain ⟨plain, ofPlain, rfl⟩ := Option.map_eq_some_iff.mp read
    exact List.forall_mem_cons.mpr ⟨link, Meaning.read?_lt ofPlain⟩
  · split at read
    · exact Meaning.read?_lt read
    · obtain ⟨plain, ofPlain, rfl⟩ := Option.map_eq_some_iff.mp read
      have bound := Meaning.read?_lt ofPlain
      exact bound
  · exact Meaning.read?_lt read
  · obtain ⟨plain, _, rfl⟩ := Option.map_eq_some_iff.mp read
    simpa using link
  · exact Meaning.read?_lt read

end Format

/-- A number that a signed field of a width can hold. -/
def fits? (width : Nat) (value : Int) : Option Int := (signedBits? width value).map fun _ => value

/-- The distance from an address to a target, if it is even and in the range of a signed field. -/
def distance? (width : Nat) (address target : Word) : Option Int :=
  let offset : Int := target.toNat - address.toNat
  if offset % 2 = 0 then fits? width offset else none

def Format.word? (address : Word) : Format → Meaning → Option Word
  | .register funct3 funct7, ⟨[rd, rs1, rs2], none, none⟩ =>
    some (RType.pack { funct7, rs2, rs1, funct3, rd, opcode := opRegister })
  | .aluImmediate funct3, ⟨[rd, rs1], some value, none⟩ =>
    (fits? 12 value).map fun imm => IType.pack { imm, rs1, funct3, rd, opcode := opImmediate }
  | .load funct3, ⟨[rd, rs1], some offset, none⟩ =>
    (fits? 12 offset).map fun imm => IType.pack { imm, rs1, funct3, rd, opcode := opLoad }
  | .jumpLinkRegister, ⟨[rd, rs1], some offset, none⟩ =>
    (fits? 12 offset).map fun imm => IType.pack { imm, rs1, rd, opcode := opJalr }
  | .store funct3, ⟨[rs2, rs1], some offset, none⟩ =>
    (fits? 12 offset).map fun imm => SType.pack { imm, rs2, rs1, funct3, opcode := opStore }
  | .branch funct3, ⟨[rs1, rs2], none, some target⟩ =>
    (distance? 13 address target).map fun imm => BType.pack { imm, rs2, rs1, funct3, opcode := opBranch }
  | .upper opcode, ⟨[rd], some value, none⟩ => (unsignedBits? 20 value).map fun imm => UType.pack { imm, rd, opcode }
  | .jumpLink, ⟨[rd], none, some target⟩ =>
    (distance? 21 address target).map fun imm => JType.pack { imm, rd, opcode := opJal }
  | _, _ => none

theorem fits?_eq_some {width : Nat} {value imm : Int} (positive : 0 < width) :
    fits? width value = some imm ↔ imm = value ∧ (BitVec.ofInt width value).toInt = value := by
  simp only [fits?, Option.map_eq_some_iff, signedBits?_eq_some positive]
  constructor
  · rintro ⟨bits, ⟨_, same⟩, rfl⟩
    exact ⟨rfl, same⟩
  · rintro ⟨rfl, same⟩
    exact ⟨_, ⟨rfl, same⟩, rfl⟩

theorem immediate12_eq_ok {value imm : Int} : immediate12 value = .ok imm ↔ fits? 12 value = some imm := by
  simp [immediate12, fits?]

theorem pcRelative_eq_ok {labels : LabelTable} {address : Word} {width : Nat} (positive : 0 < width) {token : Text}
    {imm : Int} :
    pcRelative labels address width token = .ok imm ↔
      ∃ target, labels.target token = .ok target ∧ distance? width address target = some imm := by
  simp only [pcRelative, distance?, fits?, bind_eq_ok]
  constructor
  · rintro ⟨target, found, checked⟩
    refine ⟨target, found, ?_⟩
    split at checked
    · rename_i even
      simpa [even, positive] using checked
    · cases checked
  · rintro ⟨target, found, checked⟩
    refine ⟨target, found, ?_⟩
    split at checked
    · rename_i even
      simpa [even, positive] using checked
    · cases checked

/-- The forms of a register jump all denote a link register, a base register and an offset. -/
theorem Format.read?_jumpLinkRegister_eq_some {labels : LabelTable} {ops : List Text} {m : Meaning} :
    read? labels .jumpLinkRegister ops = some m ↔
      ∃ place, jumpOperands ops = .ok place ∧ ⟨[place.1, place.2.1], some place.2.2, none⟩ = m := by
  rcases ops with _ | ⟨link, _ | ⟨base, _ | ⟨token, _ | ⟨fourth, rest⟩⟩⟩⟩
  · simp [jumpOperands, Operand.wrongShape, read?]
  · simp [jumpOperands, read?, Slot.read?, Meaning.append]
  · by_cases isMemory : Operand.isMemory base
    · simp [jumpOperands, read?, isMemory, Slot.read?, Meaning.append]
      grind
    · simp [jumpOperands, read?, isMemory, Slot.read?, Meaning.append]
  · simp [jumpOperands, read?, Slot.read?, Meaning.append]
    grind
  · simp [jumpOperands, Operand.wrongShape, read?]

theorem encode_eq_ok_iff {labels : LabelTable} {address : Word} {mnemonic : Text} {ops : List Text}
    {format : Format} {word : Word} :
    encode labels address mnemonic ops format = .ok word ↔
      ∃ m, format.read? labels ops = some m ∧ format.word? address m = some word := by
  cases format with
  | register | aluImmediate | load | store | upper =>
    simp [encode, immediate12_eq_ok, Format.read?, Format.slots, Slot.read?, Meaning.append]
    simp [Format.word?]
    grind
  | branch =>
    simp [encode, pcRelative_eq_ok, Format.read?, Format.slots, Slot.read?, Meaning.append]
    simp [Format.word?]
    grind
  | jumpLinkRegister =>
    simp [encode, immediate12_eq_ok, Format.read?_jumpLinkRegister_eq_some]
    simp [Format.word?]
  | jumpLink =>
    rcases ops with _ | ⟨first, _ | ⟨second, _ | ⟨third, rest⟩⟩⟩
    · simp [encode, Operand.wrongShape, Format.read?, Format.slots]
    · simp [encode, pcRelative_eq_ok, Format.read?, Slot.read?, Meaning.append]
      simp [Format.word?]
      grind
    · simp [encode, pcRelative_eq_ok, Format.read?, Format.slots, Slot.read?, Meaning.append]
      simp [Format.word?]
      grind
    · simp [encode, Operand.wrongShape, Format.read?, Format.slots]
  | reserved => simp [encode, Format.read?, throw, throwThe, MonadExceptOf.throw]

def Format.meaning (word address : Word) (format : Format) : Meaning :=
  let r := RType.unpack word
  let i := IType.unpack word
  let s := SType.unpack word
  let b := BType.unpack word
  let u := UType.unpack word
  let j := JType.unpack word
  match format with
  | .register _ _ => { registers := [r.rd, r.rs1, r.rs2] }
  | .aluImmediate _ | .load _ | .jumpLinkRegister => { registers := [i.rd, i.rs1], number := some i.imm }
  | .store _ => { registers := [s.rs2, s.rs1], number := some s.imm }
  | .branch _ => { registers := [b.rs1, b.rs2], target := some (relativeTarget address b.imm) }
  | .upper _ => { registers := [u.rd], number := some u.imm }
  | .jumpLink => { registers := [j.rd], target := some (relativeTarget address j.imm) }
  | .reserved => {}

theorem RType.unpack_lt (word : Word) :
    (unpack word).rd < 32 ∧ (unpack word).rs1 < 32 ∧ (unpack word).rs2 < 32 := by
  simp only [unpack, Word.bits_eq]
  omega

theorem IType.unpack_lt (word : Word) : (unpack word).rd < 32 ∧ (unpack word).rs1 < 32 := by
  simp only [unpack, Word.bits_eq]
  omega

theorem IType.imm_range (word : Word) : -2 ^ 11 ≤ (unpack word).imm ∧ (unpack word).imm < 2 ^ 11 :=
  ⟨BitVec.le_toInt _, BitVec.toInt_lt⟩

theorem SType.unpack_lt (word : Word) : (unpack word).rs2 < 32 ∧ (unpack word).rs1 < 32 := by
  simp only [unpack, Word.bits_eq]
  omega

theorem SType.imm_range (word : Word) : -2 ^ 11 ≤ (unpack word).imm ∧ (unpack word).imm < 2 ^ 11 :=
  ⟨BitVec.le_toInt _, BitVec.toInt_lt⟩

theorem BType.unpack_lt (word : Word) : (unpack word).rs2 < 32 ∧ (unpack word).rs1 < 32 := by
  simp only [unpack, Word.bits_eq]
  omega

theorem UType.unpack_lt (word : Word) : (unpack word).imm < 2 ^ 20 ∧ (unpack word).rd < 32 := by
  simp only [unpack, Word.bits_eq]
  omega

theorem JType.unpack_lt (word : Word) : (unpack word).rd < 32 := by
  simp only [unpack, Word.bits_eq]
  omega

theorem memory_memoryText {offset : Int} {base : Nat} (range : -2 ^ 11 ≤ offset ∧ offset < 2 ^ 11) (bound : base < 32) :
    Operand.memory .riscv (memoryText offset base) = .ok (offset, base) := by
  have place := Operand.memory_memoryText .riscv offset (by omega) (by omega) bound
  simpa [memoryText] using place

theorem isMemory_memoryText (offset : Int) (base : Nat) : Operand.isMemory (memoryText offset base) := by
  simp [Operand.isMemory, memoryText]

theorem plain_operandTexts (word address : Word) (format : Format) :
    ∀ token ∈ operandTexts word address format, Text.Plain token := by
  have name := Arch.plain_registerName .riscv
  have place : ∀ offset base, Text.Plain (memoryText offset base) := Operand.plain_memoryText .riscv
  cases format <;>
  simp only [operandTexts, List.forall_mem_cons, List.not_mem_nil, false_imp_iff, implies_true, and_true, name, place,
    Numeral.plain_signed, Numeral.plain_hex]

theorem Format.read?_operandTexts {labels : LabelTable} (named : labels.Named) {format : Format}
    {word address : Word} (described : format.describes word) :
    format.read? labels (operandTexts word address format) = some (format.meaning word address) := by
  cases format with
  | register =>
    have fields := RType.unpack_lt word
    simp [read?, slots, operandTexts, meaning, Meaning.read?, Slot.read?, Meaning.append,
      Arch.register?_registerName, fields]
  | aluImmediate =>
    have fields := IType.unpack_lt word
    have range := IType.imm_range word
    have number := Numeral.literal?_signed (IType.unpack word).imm (by omega) (by omega)
    simp [read?, slots, operandTexts, meaning, Meaning.read?, Slot.read?, Meaning.append,
      Arch.register?_registerName, fields, number]
  | load =>
    have fields := IType.unpack_lt word
    simp [read?, slots, operandTexts, meaning, Meaning.read?, Slot.read?, Meaning.append,
      Arch.register?_registerName, fields, memory_memoryText (IType.imm_range word), Except.toOption]
  | jumpLinkRegister =>
    have fields := IType.unpack_lt word
    simp [read?, operandTexts, meaning, Meaning.read?, Slot.read?, Meaning.append, isMemory_memoryText,
      Arch.register?_registerName, fields, memory_memoryText (IType.imm_range word), Except.toOption]
  | store =>
    have fields := SType.unpack_lt word
    simp [read?, slots, operandTexts, meaning, Meaning.read?, Slot.read?, Meaning.append,
      Arch.register?_registerName, fields, memory_memoryText (SType.imm_range word), Except.toOption]
  | branch =>
    have fields := BType.unpack_lt word
    simp [read?, slots, operandTexts, meaning, Meaning.read?, Slot.read?, Meaning.append,
      Arch.register?_registerName, fields, named.target_hex, Except.toOption]
  | upper =>
    have fields := UType.unpack_lt word
    have number := Numeral.literal?_hex (n := (UType.unpack word).imm) (by omega)
    simp [read?, slots, operandTexts, meaning, Meaning.read?, Slot.read?, Meaning.append,
      Arch.register?_registerName, fields, number]
  | jumpLink =>
    have fields := JType.unpack_lt word
    simp [read?, slots, operandTexts, meaning, Meaning.read?, Slot.read?, Meaning.append,
      Arch.register?_registerName, fields, named.target_hex, Except.toOption]
  | reserved => cases described

def Format.InRange : Format → Prop
  | .register funct3 funct7 => funct3 < 8 ∧ funct7 < 128
  | .aluImmediate funct3 | .load funct3 | .store funct3 | .branch funct3 => funct3 < 8
  | .upper opcode => opcode < 128
  | .jumpLinkRegister | .jumpLink | .reserved => True

theorem RType.unpack_pack_of_lt {f : RType} (funct7 : f.funct7 < 128) (rs2 : f.rs2 < 32) (rs1 : f.rs1 < 32)
    (funct3 : f.funct3 < 8) (rd : f.rd < 32) (opcode : f.opcode < 128) :
    unpack f.pack = f ∧ opcodeOf f.pack = f.opcode ∧ Word.bits f.pack 14 12 = f.funct3 ∧
      Word.bits f.pack 31 25 = f.funct7 := by
  have whole : unpack f.pack = f := by
    rw [unpack_pack, Nat.mod_eq_of_lt funct7, Nat.mod_eq_of_lt rs2, Nat.mod_eq_of_lt rs1, Nat.mod_eq_of_lt funct3,
      Nat.mod_eq_of_lt rd, Nat.mod_eq_of_lt opcode]
  exact ⟨whole, congrArg RType.opcode whole, congrArg RType.funct3 whole, congrArg RType.funct7 whole⟩

theorem IType.unpack_pack_of_lt {f : IType} (imm : (BitVec.ofInt 12 f.imm).toInt = f.imm) (rs1 : f.rs1 < 32)
    (funct3 : f.funct3 < 8) (rd : f.rd < 32) (opcode : f.opcode < 128) :
    unpack f.pack = f ∧ opcodeOf f.pack = f.opcode ∧ Word.bits f.pack 14 12 = f.funct3 := by
  have whole : unpack f.pack = f := by
    rw [unpack_pack, imm, Nat.mod_eq_of_lt rs1, Nat.mod_eq_of_lt funct3, Nat.mod_eq_of_lt rd, Nat.mod_eq_of_lt opcode]
  exact ⟨whole, congrArg IType.opcode whole, congrArg IType.funct3 whole⟩

theorem SType.unpack_pack_of_lt {f : SType} (imm : (BitVec.ofInt 12 f.imm).toInt = f.imm) (rs2 : f.rs2 < 32)
    (rs1 : f.rs1 < 32) (funct3 : f.funct3 < 8) (opcode : f.opcode < 128) :
    unpack f.pack = f ∧ opcodeOf f.pack = f.opcode ∧ Word.bits f.pack 14 12 = f.funct3 := by
  have whole : unpack f.pack = f := by
    rw [unpack_pack, imm, Nat.mod_eq_of_lt rs2, Nat.mod_eq_of_lt rs1, Nat.mod_eq_of_lt funct3, Nat.mod_eq_of_lt opcode]
  exact ⟨whole, congrArg SType.opcode whole, congrArg SType.funct3 whole⟩

theorem BType.unpack_pack_of_lt {f : BType} (even : f.imm % 2 = 0) (imm : (BitVec.ofInt 13 f.imm).toInt = f.imm)
    (rs2 : f.rs2 < 32) (rs1 : f.rs1 < 32) (funct3 : f.funct3 < 8) (opcode : f.opcode < 128) :
    unpack f.pack = f ∧ opcodeOf f.pack = f.opcode ∧ Word.bits f.pack 14 12 = f.funct3 := by
  have whole : unpack f.pack = f := by
    rw [unpack_pack, Int.ediv_mul_cancel (Int.dvd_of_emod_eq_zero even), imm, Nat.mod_eq_of_lt rs2,
      Nat.mod_eq_of_lt rs1, Nat.mod_eq_of_lt funct3, Nat.mod_eq_of_lt opcode]
  exact ⟨whole, congrArg BType.opcode whole, congrArg BType.funct3 whole⟩

theorem UType.unpack_pack_of_lt {f : UType} (imm : f.imm < 2 ^ 20) (rd : f.rd < 32) (opcode : f.opcode < 128) :
    unpack f.pack = f ∧ opcodeOf f.pack = f.opcode := by
  have whole : unpack f.pack = f := by
    rw [unpack_pack, Nat.mod_eq_of_lt imm, Nat.mod_eq_of_lt rd, Nat.mod_eq_of_lt opcode]
  exact ⟨whole, congrArg UType.opcode whole⟩

theorem JType.unpack_pack_of_lt {f : JType} (even : f.imm % 2 = 0) (imm : (BitVec.ofInt 21 f.imm).toInt = f.imm)
    (rd : f.rd < 32) (opcode : f.opcode < 128) : unpack f.pack = f ∧ opcodeOf f.pack = f.opcode := by
  have whole : unpack f.pack = f := by
    rw [unpack_pack, Int.ediv_mul_cancel (Int.dvd_of_emod_eq_zero even), imm, Nat.mod_eq_of_lt rd,
      Nat.mod_eq_of_lt opcode]
  exact ⟨whole, congrArg JType.opcode whole⟩

theorem relativeTarget_of_distance {width : Nat} {address target : Word} {imm : Int} (positive : 0 < width)
    (fits : distance? width address target = some imm) :
    imm % 2 = 0 ∧ (BitVec.ofInt width imm).toInt = imm ∧ (address.toNat : Int) + imm = target.toNat ∧
      relativeTarget address imm = target := by
  simp only [distance?, Option.ite_none_right_eq_some] at fits
  obtain ⟨even, fits⟩ := fits
  obtain ⟨rfl, same⟩ := (fits?_eq_some positive).mp fits
  refine ⟨even, same, by omega, ?_⟩
  unfold relativeTarget
  rw [BitVec.toNat_eq, BitVec.toNat_add, BitVec.toNat_ofInt]
  have bounds := And.intro address.isLt target.isLt
  omega

theorem Format.describes_of_word? {format : Format} {address word : Word} {m : Meaning}
    (inRange : format.InRange) (small : ∀ n ∈ m.registers, n < 32) (packed : format.word? address m = some word) :
    format.describes word ∧ format.meaning word address = m := by
  unfold word? at packed
  split at packed
  case h_1 funct3 funct7 rd rs1 rs2 =>
    cases packed
    simp only [List.forall_mem_cons] at small
    obtain ⟨unpacked, sameOpcode, low, high⟩ := RType.unpack_pack_of_lt
      (f := { funct7, rs2, rs1, funct3, rd, opcode := opRegister })
      inRange.2 small.2.2.1 small.2.1 inRange.1 small.1 (show opRegister < 128 by decide)
    simp [describes, meaning, unpacked, sameOpcode, low, high]
  case h_2 funct3 rd rs1 value =>
    obtain ⟨imm, fits, rfl⟩ := Option.map_eq_some_iff.mp packed
    obtain ⟨rfl, same⟩ := (fits?_eq_some (by decide)).mp fits
    simp only [List.forall_mem_cons] at small
    obtain ⟨unpacked, sameOpcode, low⟩ := IType.unpack_pack_of_lt
      (f := { imm, rs1, funct3, rd, opcode := opImmediate }) same small.2.1 inRange small.1
      (show opImmediate < 128 by decide)
    simp [describes, meaning, unpacked, sameOpcode, low]
  case h_3 funct3 rd rs1 offset =>
    obtain ⟨imm, fits, rfl⟩ := Option.map_eq_some_iff.mp packed
    obtain ⟨rfl, same⟩ := (fits?_eq_some (by decide)).mp fits
    simp only [List.forall_mem_cons] at small
    obtain ⟨unpacked, sameOpcode, low⟩ := IType.unpack_pack_of_lt
      (f := { imm, rs1, funct3, rd, opcode := opLoad }) same small.2.1 inRange small.1 (show opLoad < 128 by decide)
    simp [describes, meaning, unpacked, sameOpcode, low]
  case h_4 rd rs1 offset =>
    obtain ⟨imm, fits, rfl⟩ := Option.map_eq_some_iff.mp packed
    obtain ⟨rfl, same⟩ := (fits?_eq_some (by decide)).mp fits
    simp only [List.forall_mem_cons] at small
    obtain ⟨unpacked, sameOpcode, low⟩ := IType.unpack_pack_of_lt
      (f := { imm, rs1, rd, opcode := opJalr }) same small.2.1 (Nat.succ_pos 7) small.1 (show opJalr < 128 by decide)
    simp [describes, meaning, unpacked, sameOpcode, low]
  case h_5 funct3 rs2 rs1 offset =>
    obtain ⟨imm, fits, rfl⟩ := Option.map_eq_some_iff.mp packed
    obtain ⟨rfl, same⟩ := (fits?_eq_some (by decide)).mp fits
    simp only [List.forall_mem_cons] at small
    obtain ⟨unpacked, sameOpcode, low⟩ := SType.unpack_pack_of_lt
      (f := { imm, rs2, rs1, funct3, opcode := opStore }) same small.1 small.2.1 inRange (show opStore < 128 by decide)
    simp [describes, meaning, unpacked, sameOpcode, low]
  case h_6 funct3 rs1 rs2 target =>
    obtain ⟨imm, fits, rfl⟩ := Option.map_eq_some_iff.mp packed
    obtain ⟨even, same, _, reached⟩ := relativeTarget_of_distance (by decide) fits
    simp only [List.forall_mem_cons] at small
    obtain ⟨unpacked, sameOpcode, low⟩ := BType.unpack_pack_of_lt
      (f := { imm, rs2, rs1, funct3, opcode := opBranch }) even same small.2.1 small.1 inRange
      (show opBranch < 128 by decide)
    simp [describes, meaning, unpacked, sameOpcode, low, reached]
  case h_7 opcode rd value =>
    obtain ⟨imm, fits, rfl⟩ := Option.map_eq_some_iff.mp packed
    obtain ⟨same, bound⟩ := unsignedBits?_eq_some.mp fits
    simp only [List.forall_mem_cons] at small
    obtain ⟨unpacked, sameOpcode⟩ := UType.unpack_pack_of_lt (f := { imm, rd, opcode }) bound small.1 inRange
    simp [describes, meaning, unpacked, sameOpcode, same]
  case h_8 rd target =>
    obtain ⟨imm, fits, rfl⟩ := Option.map_eq_some_iff.mp packed
    obtain ⟨even, same, _, reached⟩ := relativeTarget_of_distance (by decide) fits
    simp only [List.forall_mem_cons] at small
    obtain ⟨unpacked, sameOpcode⟩ := JType.unpack_pack_of_lt (f := { imm, rd, opcode := opJal }) even same small.1
      (show opJal < 128 by decide)
    simp [describes, meaning, unpacked, sameOpcode, reached]
  case h_9 => cases packed

end RiscAsm.RiscV
