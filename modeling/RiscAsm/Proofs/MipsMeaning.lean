import RiscAsm.Mips.Decode
import RiscAsm.Mips.Encode
import RiscAsm.Proofs.LabelNames

namespace RiscAsm.Mips

namespace Format

/-- The operands that a format is written with. -/
def slots : Format → List Slot
  | .alu _ => [.register, .register, .register]
  | .shift _ | .aluImmediate _ _ => [.register, .register, .number]
  | .jumpRegister _ => [.register]
  | .jumpLinkRegister _ => [.register, .register]
  | .loadUpper _ => [.register, .number]
  | .memory _ => [.register, .memory]
  | .branch _ => [.register, .register, .target]
  | .branchZero _ _ => [.register, .target]
  | .jump _ => [.target]
  | .reserved => []

/-- What operands denote. A register jump with one operand links into the default register. -/
def read? (labels : LabelTable) (format : Format) (ops : List Text) : Option Meaning :=
  match format, ops with
  | .reserved, _ => none
  | .jumpLinkRegister _, [rs] =>
    (Meaning.read? .mips labels [.register] [rs]).map fun m => { registers := Arch.mips.linkRegister :: m.registers }
  | format, ops => Meaning.read? .mips labels format.slots ops

theorem read?_lt {labels : LabelTable} {format : Format} {ops : List Text} {m : Meaning}
    (read : format.read? labels ops = some m) : ∀ n ∈ m.registers, n < 32 := by
  unfold read? at read
  split at read
  · cases read
  · obtain ⟨linked, ofLinked, rfl⟩ := Option.map_eq_some_iff.mp read
    exact List.forall_mem_cons.mpr ⟨by decide, Meaning.read?_lt ofLinked⟩
  · exact Meaning.read?_lt read

end Format

/-- The field of a branch from an address to a target, counted in words from the next instruction. -/
def branchBits? (address target : Word) : Option Nat :=
  if target.toNat % 4 = 0 then signedBits? 16 ((target.toNat / 4 : Nat) - ((address.toNat / 4 : Nat) + 1)) else none

def Format.word? (address : Word) : Format → Meaning → Option Word
  | .alu funct, ⟨[rd, rs, rt], none, none⟩ => some (RType.pack { rs, rt, rd, funct })
  | .shift funct, ⟨[rd, rt], some amount, none⟩ =>
    (unsignedBits? 5 amount).map fun shamt => RType.pack { rt, rd, shamt, funct }
  | .jumpRegister funct, ⟨[rs], none, none⟩ => some (RType.pack { rs, funct })
  | .jumpLinkRegister funct, ⟨[rd, rs], none, none⟩ => some (RType.pack { rs, rd, funct })
  | .aluImmediate opcode signed, ⟨[rt, rs], some value, none⟩ =>
    (if signed then signedBits? 16 value else unsignedBits? 16 value).map fun imm => IType.pack { opcode, rs, rt, imm }
  | .loadUpper opcode, ⟨[rt], some value, none⟩ =>
    (unsignedBits? 16 value).map fun imm => IType.pack { opcode, rt, imm }
  | .memory opcode, ⟨[rt, rs], some offset, none⟩ =>
    (signedBits? 16 offset).map fun imm => IType.pack { opcode, rs, rt, imm }
  | .branch opcode, ⟨[rs, rt], none, some target⟩ =>
    (branchBits? address target).map fun imm => IType.pack { opcode, rs, rt, imm }
  | .branchZero opcode rt, ⟨[rs], none, some target⟩ =>
    (branchBits? address target).map fun imm => IType.pack { opcode, rs, rt, imm }
  | .jump opcode, ⟨[], none, some target⟩ =>
    if target.toNat % 4 = 0 then
      (unsignedBits? 26 (target.toNat / 4 : Nat)).map fun target => JType.pack { opcode, target }
    else none
  | _, _ => none

theorem alignedTarget_eq_ok {labels : LabelTable} {token : Text} {target : Word} :
    alignedTarget labels token = .ok target ↔ labels.target token = .ok target ∧ target.toNat % 4 = 0 := by
  simp only [alignedTarget, bind_eq_ok]
  constructor
  · rintro ⟨address, found, checked⟩
    split at checked
    · simp_all
    · cases checked
  · rintro ⟨found, aligned⟩
    exact ⟨target, found, by simp [aligned]⟩

theorem branchOffset_eq_ok {labels : LabelTable} {address : Word} {token : Text} {bits : Nat} :
    branchOffset labels address token = .ok bits ↔
      ∃ target, labels.target token = .ok target ∧ branchBits? address target = some bits := by
  simp [branchOffset, alignedTarget_eq_ok, branchBits?, and_assoc]

/-- Encoding reads what the operands denote and then packs it into the word. The order in which it checks the
operands decides only which fault is reported. -/
theorem encode_eq_ok_iff {labels : LabelTable} {address : Word} {mnemonic : Text} {ops : List Text}
    {format : Format} {word : Word} :
    encode labels address mnemonic ops format = .ok word ↔
      ∃ m, format.read? labels ops = some m ∧ format.word? address m = some word := by
  cases format with
  | alu | shift | jumpRegister | loadUpper | memory =>
    -- Only once the operands are read is it known which pattern of `word?` they match.
    simp [encode, Format.read?, Format.slots, Slot.read?, Meaning.append]
    simp [Format.word?]
    grind
  | branch | branchZero =>
    simp [encode, branchOffset_eq_ok, Format.read?, Format.slots, Slot.read?, Meaning.append]
    simp [Format.word?]
    grind
  | aluImmediate opcode signed =>
    cases signed <;>
    · simp [encode, Format.read?, Format.slots, Slot.read?, Meaning.append]
      simp [Format.word?]
      grind
  | jumpLinkRegister funct =>
    rcases ops with _ | ⟨first, _ | ⟨second, _ | ⟨third, rest⟩⟩⟩
    · simp [encode, Operand.wrongShape, Format.read?, Format.slots]
    · simp [encode, Format.read?, Slot.read?, Meaning.append]
      simp [Format.word?]
    · simp [encode, Format.read?, Format.slots, Slot.read?, Meaning.append]
      simp [Format.word?]
    · simp [encode, Operand.wrongShape, Format.read?, Format.slots]
  | jump =>
    simp [encode, alignedTarget_eq_ok, Format.read?, Format.slots, Slot.read?, Meaning.append]
    simp [Format.word?]
    grind
  | reserved => simp [encode, Format.read?, throw, throwThe, MonadExceptOf.throw]

def Format.meaning (word address : Word) (format : Format) : Meaning :=
  let r := RType.unpack word
  let i := IType.unpack word
  match format with
  | .alu _ => { registers := [r.rd, r.rs, r.rt] }
  | .shift _ => { registers := [r.rd, r.rt], number := some r.shamt }
  | .jumpRegister _ => { registers := [r.rs] }
  | .jumpLinkRegister _ => { registers := [r.rd, r.rs] }
  | .aluImmediate _ signed => { registers := [i.rt, i.rs], number := some (if signed then i.signedImm else i.imm) }
  | .loadUpper _ => { registers := [i.rt], number := some i.imm }
  | .memory _ => { registers := [i.rt, i.rs], number := some i.signedImm }
  | .branch _ => { registers := [i.rs, i.rt], target := some (branchTarget address i) }
  | .branchZero _ _ => { registers := [i.rs], target := some (branchTarget address i) }
  | .jump _ => { target := some (BitVec.ofNat 32 (4 * (JType.unpack word).target)) }
  | .reserved => {}

theorem RType.unpack_lt (word : Word) :
    (unpack word).rs < 32 ∧ (unpack word).rt < 32 ∧ (unpack word).rd < 32 ∧ (unpack word).shamt < 32 := by
  simp only [unpack, Word.bits_eq]
  omega

theorem IType.unpack_lt (word : Word) :
    (unpack word).rs < 32 ∧ (unpack word).rt < 32 ∧ (unpack word).imm < 2 ^ 16 := by
  simp only [unpack, Word.bits_eq]
  omega

theorem JType.unpack_lt (word : Word) : (unpack word).target < 2 ^ 26 := by
  simp only [unpack, Word.bits_eq]
  omega

theorem IType.signedImm_eq (f : IType) : f.signedImm = (BitVec.ofNat 16 f.imm).toInt := by
  unfold signedImm Word.signExtend
  congr 1
  rw [BitVec.toNat_eq, BitVec.toNat_setWidth, BitVec.toNat_ofNat, BitVec.toNat_ofNat]
  omega

theorem IType.signedImm_range (f : IType) : -2 ^ 15 ≤ f.signedImm ∧ f.signedImm < 2 ^ 15 := by
  rw [signedImm_eq]
  exact ⟨BitVec.le_toInt _, BitVec.toInt_lt⟩

theorem plain_operandTexts (word address : Word) (format : Format) :
    ∀ token ∈ operandTexts word address format, Text.Plain token := by
  have name := Arch.plain_registerName .mips
  have place := Operand.plain_memoryText .mips
  have number := And.intro Numeral.plain_signed Numeral.plain_hex
  cases format with
  | jumpLinkRegister =>
    by_cases link : (RType.unpack word).rd = Arch.mips.linkRegister <;>
    simp [operandTexts, link, name]
  | aluImmediate opcode signed =>
    cases signed <;>
    simp [operandTexts, name, number]
  | _ =>
    simp only [operandTexts, List.forall_mem_cons, List.not_mem_nil, false_imp_iff, implies_true, and_true, name, place,
      number, Numeral.plain_decimal]

/-- The operands printed for a word denote what the word's fields hold. -/
theorem Format.read?_operandTexts {labels : LabelTable} (named : labels.Named) {format : Format}
    {word address : Word} (described : format.describes word) :
    format.read? labels (operandTexts word address format) = some (format.meaning word address) := by
  have registers := RType.unpack_lt word
  have fields := IType.unpack_lt word
  have offset := (IType.unpack word).signedImm_range
  have index := JType.unpack_lt word
  cases format with
  | alu | jumpRegister =>
    simp [read?, slots, operandTexts, meaning, Meaning.read?, Slot.read?, Meaning.append,
      Arch.register?_registerName, registers]
  | shift =>
    have amount := Numeral.literal?_decimal (n := (RType.unpack word).shamt) (by omega)
    simp [read?, slots, operandTexts, meaning, Meaning.read?, Slot.read?, Meaning.append,
      Arch.register?_registerName, registers, amount]
  | jumpLinkRegister =>
    by_cases link : (RType.unpack word).rd = Arch.mips.linkRegister <;>
    simp [read?, slots, operandTexts, meaning, Meaning.read?, Slot.read?, Meaning.append,
      Arch.register?_registerName, registers, link]
  | aluImmediate opcode signed =>
    have plain := Numeral.literal?_hex (n := (IType.unpack word).imm) (by omega)
    have minus := Numeral.literal?_signed (IType.unpack word).signedImm (by omega) (by omega)
    cases signed <;>
    simp [read?, slots, operandTexts, meaning, Meaning.read?, Slot.read?, Meaning.append,
      Arch.register?_registerName, fields, plain, minus]
  | loadUpper =>
    have plain := Numeral.literal?_hex (n := (IType.unpack word).imm) (by omega)
    simp [read?, slots, operandTexts, meaning, Meaning.read?, Slot.read?, Meaning.append,
      Arch.register?_registerName, fields, plain]
  | memory =>
    have place := Operand.memory_memoryText .mips (IType.unpack word).signedImm
      (by omega) (by omega) fields.1
    simp [read?, slots, operandTexts, meaning, Meaning.read?, Slot.read?, Meaning.append,
      Arch.register?_registerName, fields, place, Except.toOption]
  | branch | branchZero =>
    simp [read?, slots, operandTexts, meaning, Meaning.read?, Slot.read?, Meaning.append,
      Arch.register?_registerName, fields, named.target_hex, Except.toOption]
  | jump =>
    have address := named.target_hex (BitVec.ofNat 32 (4 * (JType.unpack word).target))
    rw [BitVec.toNat_ofNat, Nat.mod_eq_of_lt (by omega)] at address
    simp [read?, slots, operandTexts, meaning, Meaning.read?, Slot.read?, Meaning.append, address, Except.toOption]
  | reserved => cases described

/-- The parameters of a format fit its fields. -/
def Format.InRange : Format → Prop
  | .alu funct | .shift funct | .jumpRegister funct | .jumpLinkRegister funct => funct < 64
  | .aluImmediate opcode _ | .loadUpper opcode | .memory opcode | .branch opcode | .jump opcode => opcode < 64
  | .branchZero opcode rt => opcode < 64 ∧ rt < 32
  | .reserved => True

/-- Fields that fit their widths are read back, and the opcode fields are those of the format. -/
theorem RType.unpack_pack_of_lt {f : RType} (rs : f.rs < 32) (rt : f.rt < 32) (rd : f.rd < 32) (shamt : f.shamt < 32)
    (funct : f.funct < 64) : unpack f.pack = f ∧ Word.bits f.pack 5 0 = f.funct := by
  have whole : unpack f.pack = f := by
    rw [unpack_pack, Nat.mod_eq_of_lt rs, Nat.mod_eq_of_lt rt, Nat.mod_eq_of_lt rd, Nat.mod_eq_of_lt shamt,
      Nat.mod_eq_of_lt funct]
  exact ⟨whole, congrArg RType.funct whole⟩

theorem IType.unpack_pack_of_lt {f : IType} (opcode : f.opcode < 64) (rs : f.rs < 32) (rt : f.rt < 32)
    (imm : f.imm < 2 ^ 16) : unpack f.pack = f ∧ opcodeOf f.pack = f.opcode ∧ Word.bits f.pack 20 16 = f.rt := by
  have whole : unpack f.pack = f := by
    rw [unpack_pack, Nat.mod_eq_of_lt opcode, Nat.mod_eq_of_lt rs, Nat.mod_eq_of_lt rt, Nat.mod_eq_of_lt imm]
  exact ⟨whole, congrArg IType.opcode whole, congrArg IType.rt whole⟩

theorem JType.unpack_pack_of_lt {f : JType} (opcode : f.opcode < 64) (target : f.target < 2 ^ 26) :
    unpack f.pack = f ∧ opcodeOf f.pack = f.opcode := by
  have whole : unpack f.pack = f := by
    rw [unpack_pack, Nat.mod_eq_of_lt opcode, Nat.mod_eq_of_lt target]
  exact ⟨whole, congrArg JType.opcode whole⟩

theorem signedImm_of_bits {f : IType} {value : Int} (packed : signedBits? 16 value = some f.imm) :
    f.imm < 2 ^ 16 ∧ f.signedImm = value := by
  obtain ⟨bits, same⟩ := (signedBits?_eq_some (by decide)).mp packed
  rw [IType.signedImm_eq, bits, BitVec.ofNat_toNat, BitVec.setWidth_eq]
  exact ⟨BitVec.isLt _, same⟩

theorem branchTarget_of_bits {address target : Word} {i : IType} (aligned : address.toNat % 4 = 0)
    (packed : branchBits? address target = some i.imm) :
    i.imm < 2 ^ 16 ∧ 4 * (address.toNat / 4 + 1 : Int) + 4 * i.signedImm = target.toNat ∧
      branchTarget address i = target := by
  simp only [branchBits?, Option.ite_none_right_eq_some] at packed
  obtain ⟨alignedTarget, packed⟩ := packed
  obtain ⟨bound, offset⟩ := signedImm_of_bits packed
  refine ⟨bound, by omega, ?_⟩
  have distance : 4 * i.signedImm = target.toNat - address.toNat - 4 := by omega
  unfold branchTarget
  rw [distance, BitVec.toNat_eq, BitVec.toNat_add, BitVec.toNat_add, BitVec.toNat_ofInt]
  have bounds := And.intro address.isLt target.isLt
  have four : (4 : Word).toNat = 4 := rfl
  omega

/-- A packed word is described by its format and holds what its operands denote. -/
theorem Format.describes_of_word? {format : Format} {address word : Word} {m : Meaning}
    (inRange : format.InRange) (aligned : address.toNat % 4 = 0) (small : ∀ n ∈ m.registers, n < 32)
    (packed : format.word? address m = some word) :
    format.describes word ∧ format.meaning word address = m := by
  unfold word? at packed
  split at packed
  case h_1 funct rd rs rt =>
    cases packed
    simp only [List.forall_mem_cons] at small
    obtain ⟨unpacked, sameFunct⟩ := RType.unpack_pack_of_lt (f := { rs, rt, rd, funct }) small.2.1 small.2.2.1 small.1
      (Nat.succ_pos _) inRange
    simp [describes, meaning, RType.opcodeOf_pack, unpacked, sameFunct]
  case h_2 funct rd rt amount =>
    obtain ⟨shamt, fits, rfl⟩ := Option.map_eq_some_iff.mp packed
    obtain ⟨same, bound⟩ := unsignedBits?_eq_some.mp fits
    simp only [List.forall_mem_cons] at small
    obtain ⟨unpacked, sameFunct⟩ := RType.unpack_pack_of_lt (f := { rt, rd, shamt, funct }) (Nat.succ_pos _)
      small.2.1 small.1 bound inRange
    simp [describes, meaning, RType.opcodeOf_pack, unpacked, sameFunct, same]
  case h_3 funct rs =>
    cases packed
    simp only [List.forall_mem_cons] at small
    obtain ⟨unpacked, sameFunct⟩ := RType.unpack_pack_of_lt (f := { rs, funct }) small.1 (Nat.succ_pos _)
      (Nat.succ_pos _) (Nat.succ_pos _) inRange
    simp [describes, meaning, RType.opcodeOf_pack, unpacked, sameFunct]
  case h_4 funct rd rs =>
    cases packed
    simp only [List.forall_mem_cons] at small
    obtain ⟨unpacked, sameFunct⟩ := RType.unpack_pack_of_lt (f := { rs, rd, funct }) small.2.1 (Nat.succ_pos _) small.1
      (Nat.succ_pos _) inRange
    simp [describes, meaning, RType.opcodeOf_pack, unpacked, sameFunct]
  case h_5 opcode signed rt rs value =>
    obtain ⟨imm, fits, rfl⟩ := Option.map_eq_some_iff.mp packed
    simp only [List.forall_mem_cons] at small
    cases signed with
    | true =>
      obtain ⟨bound, same⟩ := signedImm_of_bits (f := { opcode, rs, rt, imm }) fits
      obtain ⟨unpacked, sameOpcode, _⟩ := IType.unpack_pack_of_lt (f := { opcode, rs, rt, imm }) inRange
        small.2.1 small.1 bound
      simp [describes, meaning, unpacked, sameOpcode, same]
    | false =>
      obtain ⟨same, bound⟩ := unsignedBits?_eq_some.mp fits
      obtain ⟨unpacked, sameOpcode, _⟩ := IType.unpack_pack_of_lt (f := { opcode, rs, rt, imm }) inRange
        small.2.1 small.1 bound
      simp [describes, meaning, unpacked, sameOpcode, same]
  case h_6 opcode rt value =>
    obtain ⟨imm, fits, rfl⟩ := Option.map_eq_some_iff.mp packed
    obtain ⟨same, bound⟩ := unsignedBits?_eq_some.mp fits
    simp only [List.forall_mem_cons] at small
    obtain ⟨unpacked, sameOpcode, _⟩ := IType.unpack_pack_of_lt (f := { opcode, rt, imm }) inRange
      (Nat.succ_pos _) small.1 bound
    simp [describes, meaning, unpacked, sameOpcode, same]
  case h_7 opcode rt rs offset =>
    obtain ⟨imm, fits, rfl⟩ := Option.map_eq_some_iff.mp packed
    simp only [List.forall_mem_cons] at small
    obtain ⟨bound, same⟩ := signedImm_of_bits (f := { opcode, rs, rt, imm }) fits
    obtain ⟨unpacked, sameOpcode, _⟩ := IType.unpack_pack_of_lt (f := { opcode, rs, rt, imm }) inRange small.2.1 small.1
      bound
    simp [describes, meaning, unpacked, sameOpcode, same]
  case h_8 opcode rs rt target =>
    obtain ⟨imm, fits, rfl⟩ := Option.map_eq_some_iff.mp packed
    simp only [List.forall_mem_cons] at small
    obtain ⟨bound, _, same⟩ := branchTarget_of_bits (i := { opcode, rs, rt, imm }) aligned fits
    obtain ⟨unpacked, sameOpcode, _⟩ := IType.unpack_pack_of_lt (f := { opcode, rs, rt, imm }) inRange small.1 small.2.1
      bound
    simp [describes, meaning, unpacked, sameOpcode, same]
  case h_9 opcode rt rs target =>
    obtain ⟨imm, fits, rfl⟩ := Option.map_eq_some_iff.mp packed
    simp only [List.forall_mem_cons] at small
    obtain ⟨bound, _, same⟩ := branchTarget_of_bits (i := { opcode, rs, rt, imm }) aligned fits
    obtain ⟨unpacked, sameOpcode, sameRt⟩ := IType.unpack_pack_of_lt (f := { opcode, rs, rt, imm }) inRange.1 small.1
      inRange.2 bound
    simp [describes, meaning, unpacked, sameOpcode, sameRt, same]
  case h_10 opcode target =>
    simp only [Option.ite_none_right_eq_some] at packed
    obtain ⟨alignedTarget, packed⟩ := packed
    obtain ⟨index, fits, rfl⟩ := Option.map_eq_some_iff.mp packed
    obtain ⟨same, bound⟩ := unsignedBits?_eq_some.mp fits
    obtain ⟨unpacked, sameOpcode⟩ := JType.unpack_pack_of_lt (f := { opcode, target := index }) inRange bound
    have whole : BitVec.ofNat 32 (4 * index) = target := by
      rw [show 4 * index = target.toNat by omega, BitVec.ofNat_toNat, BitVec.setWidth_eq]
    simp [describes, meaning, unpacked, sameOpcode, whole]
  case h_11 => cases packed

end RiscAsm.Mips
