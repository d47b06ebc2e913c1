import RiscAsm.Proofs.RepackedFields

namespace RiscAsm

/-- A run of bits of a word. It starts at bit `place` and holds the bits of a field from its bit `first` on. -/
structure Slice where
  place : Nat
  width : Nat
  field : Int
  first : Nat := 0

namespace Slice

def SitsIn (s : Slice) (word : Word) : Prop :=
  word.extractLsb' s.place s.width = BitVec.ofInt s.width (s.field >>> s.first)

theorem SitsIn.of_toNat {place width value : Nat} {word : Word}
    (held : (word.extractLsb' place width).toNat = value % 2 ^ width) : SitsIn ⟨place, width, value, 0⟩ word := by
  rw [SitsIn, BitVec.toNat_eq, held, Int.shiftRight_zero, BitVec.ofInt_natCast, BitVec.toNat_ofNat]

theorem extractLsb'_ofNat {width first length : Nat} (inside : first + length ≤ width) (value : Nat) :
    (BitVec.ofNat width value).extractLsb' first length = BitVec.ofNat length (value >>> first) := by
  refine BitVec.eq_of_getLsbD_eq fun i small => ?_
  rw [BitVec.getLsbD_extractLsb', BitVec.getLsbD_ofNat, BitVec.getLsbD_ofNat, Nat.testBit_shiftRight]
  simp [small, show first + i < width by omega]

/-- The bits of a field below a width are those of the field that is cut to this width. -/
theorem extractLsb'_ofInt {width first length : Nat} (inside : first + length ≤ width) (value : Int) :
    (BitVec.ofInt width value).extractLsb' first length = BitVec.ofInt length (value >>> first) := by
  cases value with
  | ofNat n =>
    have shifted : Int.ofNat n >>> first = ((n >>> first : Nat) : Int) := rfl
    rw [shifted, BitVec.ofInt_natCast, ← extractLsb'_ofNat inside n]
    rfl
  | negSucc n =>
    -- The bits of a negative number are the complements of those of a natural number.
    have shifted : Int.negSucc n >>> first = Int.negSucc (n >>> first) := rfl
    rw [shifted, BitVec.ofInt_negSucc_eq_not_ofNat, BitVec.ofInt_negSucc_eq_not_ofNat, ← extractLsb'_ofNat inside n]
    refine BitVec.eq_of_getLsbD_eq fun i small => ?_
    rw [BitVec.getLsbD_extractLsb', BitVec.getLsbD_not, BitVec.getLsbD_not, BitVec.getLsbD_extractLsb']
    simp [small, show first + i < width by omega]

theorem SitsIn.of_extractLsb' {place width first : Nat} {word : Word} {whole : Nat} {value : Int}
    (held : word.extractLsb' place width = (BitVec.ofInt whole value).extractLsb' first width)
    (inside : first + width ≤ whole) : SitsIn ⟨place, width, value, first⟩ word :=
  held.trans (extractLsb'_ofInt inside value)

end Slice

/-- Slices lay out a word if they stand one below another from its highest bit down to its lowest, without a gap. Each
bit of the word then lies in just one of them, and is a bit of just one field. -/
def LaidOut (word : Word) : List Slice → Nat → Prop
  | [], top => top = 0
  | s :: rest, top => s.place + s.width = top ∧ s.SitsIn word ∧ LaidOut word rest s.place

/-- A layout loses nothing but what does not fit into it: unpacking gives back each field, cut to its width, and packing
gives back each word, without the bits that are no fields. Between the fields that fit and the words that have nothing
else this is a bijection. -/
structure Lossless {α : Type} (pack : α → Word) (unpack : Word → α) (cut : α → α) (keep : Word → Word)
    (layout : α → List Slice) : Prop where
  unpack_pack : ∀ f, unpack (pack f) = cut f
  pack_unpack : ∀ word, pack (unpack word) = keep word
  bijOn : Set.BijOn pack {f | cut f = f} {word | keep word = word}
  laidOut : ∀ f, LaidOut (pack f) (layout f) 32

/-- Two inverse laws make a bijection between what they leave as it is. -/
theorem Lossless.of_inverse {α : Type} {pack : α → Word} {unpack : Word → α} {cut : α → α} {keep : Word → Word}
    {layout : α → List Slice} (unpack_pack : ∀ f, unpack (pack f) = cut f)
    (pack_unpack : ∀ word, pack (unpack word) = keep word) (laidOut : ∀ f, LaidOut (pack f) (layout f) 32) :
    Lossless pack unpack cut keep layout := by
  have inverse : Set.InvOn unpack pack {f | cut f = f} {word | keep word = word} :=
    ⟨fun f fits => (unpack_pack f).trans fits, fun word kept => (pack_unpack word).trans kept⟩
  refine ⟨unpack_pack, pack_unpack, inverse.bijOn ?_ ?_, laidOut⟩
  · intro f fits
    have kept : pack (unpack (pack f)) = keep (pack f) := pack_unpack (pack f)
    rwa [unpack_pack, show cut f = f from fits, eq_comm] at kept
  · intro word kept
    have fits : unpack (pack (unpack word)) = cut (unpack word) := unpack_pack (unpack word)
    rwa [pack_unpack, show keep word = word from kept, eq_comm] at fits

namespace Mips

/-! For each layout: its fields, cut to their widths, and the slices of the word in which they stand. -/

def RType.cut (f : RType) : RType :=
  ⟨f.rs % 2 ^ 5, f.rt % 2 ^ 5, f.rd % 2 ^ 5, f.shamt % 2 ^ 5, f.funct % 2 ^ 6⟩

def IType.cut (f : IType) : IType := ⟨f.opcode % 2 ^ 6, f.rs % 2 ^ 5, f.rt % 2 ^ 5, f.imm % 2 ^ 16⟩

def JType.cut (f : JType) : JType := ⟨f.opcode % 2 ^ 6, f.target % 2 ^ 26⟩

def RType.layout (f : RType) : List Slice :=
  [⟨26, 6, (0 : Nat), 0⟩, ⟨21, 5, f.rs, 0⟩, ⟨16, 5, f.rt, 0⟩, ⟨11, 5, f.rd, 0⟩, ⟨6, 5, f.shamt, 0⟩, ⟨0, 6, f.funct, 0⟩]

def IType.layout (f : IType) : List Slice :=
  [⟨26, 6, f.opcode, 0⟩, ⟨21, 5, f.rs, 0⟩, ⟨16, 5, f.rt, 0⟩, ⟨0, 16, f.imm, 0⟩]

def JType.layout (f : JType) : List Slice := [⟨26, 6, f.opcode, 0⟩, ⟨0, 26, f.target, 0⟩]

theorem RType.laidOut_pack (f : RType) : LaidOut f.pack f.layout 32 := by
  obtain ⟨rs, rt, rd, shamt, funct⟩ := mk.inj f.unpack_pack
  exact ⟨rfl, .of_toNat f.opcodeOf_pack, rfl, .of_toNat rs, rfl, .of_toNat rt, rfl, .of_toNat rd, rfl, .of_toNat shamt,
    rfl, .of_toNat funct, rfl⟩

theorem IType.laidOut_pack (f : IType) : LaidOut f.pack f.layout 32 := by
  obtain ⟨opcode, rs, rt, imm⟩ := mk.inj f.unpack_pack
  exact ⟨rfl, .of_toNat opcode, rfl, .of_toNat rs, rfl, .of_toNat rt, rfl, .of_toNat imm, rfl⟩

theorem JType.laidOut_pack (f : JType) : LaidOut f.pack f.layout 32 := by
  obtain ⟨opcode, target⟩ := mk.inj f.unpack_pack
  exact ⟨rfl, .of_toNat opcode, rfl, .of_toNat target, rfl⟩

/-- The opcode is no field of a register instruction, and packing leaves it zero. -/
theorem RType.pack_unpack (word : Word) : (unpack word).pack = word.clear 31 26 := by
  have fields : unpack (word.clear 31 26) = unpack word := by
    simp (disch := decide) [unpack, Word.bits_clear_apart]
  rw [← fields]
  exact pack_unpack_of_opcodeOf (Word.bits_clear_inside word (by decide) (by decide))

end Mips

namespace RiscV

def RType.cut (f : RType) : RType :=
  ⟨f.funct7 % 2 ^ 7, f.rs2 % 2 ^ 5, f.rs1 % 2 ^ 5, f.funct3 % 2 ^ 3, f.rd % 2 ^ 5, f.opcode % 2 ^ 7⟩

def IType.cut (f : IType) : IType :=
  ⟨f.imm.bmod (2 ^ 12), f.rs1 % 2 ^ 5, f.funct3 % 2 ^ 3, f.rd % 2 ^ 5, f.opcode % 2 ^ 7⟩

def SType.cut (f : SType) : SType :=
  ⟨f.imm.bmod (2 ^ 12), f.rs2 % 2 ^ 5, f.rs1 % 2 ^ 5, f.funct3 % 2 ^ 3, f.opcode % 2 ^ 7⟩

def BType.cut (f : BType) : BType :=
  ⟨(f.imm / 2 * 2).bmod (2 ^ 13), f.rs2 % 2 ^ 5, f.rs1 % 2 ^ 5, f.funct3 % 2 ^ 3, f.opcode % 2 ^ 7⟩

def UType.cut (f : UType) : UType := ⟨f.imm % 2 ^ 20, f.rd % 2 ^ 5, f.opcode % 2 ^ 7⟩

def JType.cut (f : JType) : JType := ⟨(f.imm / 2 * 2).bmod (2 ^ 21), f.rd % 2 ^ 5, f.opcode % 2 ^ 7⟩

def RType.layout (f : RType) : List Slice :=
  [⟨25, 7, f.funct7, 0⟩, ⟨20, 5, f.rs2, 0⟩, ⟨15, 5, f.rs1, 0⟩, ⟨12, 3, f.funct3, 0⟩, ⟨7, 5, f.rd, 0⟩,
    ⟨0, 7, f.opcode, 0⟩]

def IType.layout (f : IType) : List Slice :=
  [⟨20, 12, f.imm, 0⟩, ⟨15, 5, f.rs1, 0⟩, ⟨12, 3, f.funct3, 0⟩, ⟨7, 5, f.rd, 0⟩, ⟨0, 7, f.opcode, 0⟩]

def SType.layout (f : SType) : List Slice :=
  [⟨25, 7, f.imm, 5⟩, ⟨20, 5, f.rs2, 0⟩, ⟨15, 5, f.rs1, 0⟩, ⟨12, 3, f.funct3, 0⟩, ⟨7, 5, f.imm, 0⟩,
    ⟨0, 7, f.opcode, 0⟩]

def BType.layout (f : BType) : List Slice :=
  [⟨31, 1, f.imm, 12⟩, ⟨25, 6, f.imm, 5⟩, ⟨20, 5, f.rs2, 0⟩, ⟨15, 5, f.rs1, 0⟩, ⟨12, 3, f.funct3, 0⟩,
    ⟨8, 4, f.imm, 1⟩, ⟨7, 1, f.imm, 11⟩, ⟨0, 7, f.opcode, 0⟩]

def UType.layout (f : UType) : List Slice := [⟨12, 20, f.imm, 0⟩, ⟨7, 5, f.rd, 0⟩, ⟨0, 7, f.opcode, 0⟩]

def JType.layout (f : JType) : List Slice :=
  [⟨31, 1, f.imm, 20⟩, ⟨21, 10, f.imm, 1⟩, ⟨20, 1, f.imm, 11⟩, ⟨12, 8, f.imm, 12⟩, ⟨7, 5, f.rd, 0⟩,
    ⟨0, 7, f.opcode, 0⟩]

theorem RType.laidOut_pack (f : RType) : LaidOut f.pack f.layout 32 := by
  obtain ⟨funct7, rs2, rs1, funct3, rd, opcode⟩ := mk.inj f.unpack_pack
  exact ⟨rfl, .of_toNat funct7, rfl, .of_toNat rs2, rfl, .of_toNat rs1, rfl, .of_toNat funct3, rfl, .of_toNat rd,
    rfl, .of_toNat opcode, rfl⟩

theorem IType.unpack_pack_eq_cut (f : IType) : unpack f.pack = f.cut := by
  rw [unpack_pack, BitVec.toInt_ofInt]
  rfl

theorem IType.laidOut_pack (f : IType) : LaidOut f.pack f.layout 32 := by
  obtain ⟨imm, rs1, funct3, rd, opcode⟩ := mk.inj f.unpack_pack
  have whole : f.pack.extractLsb' 20 12 = (BitVec.ofInt 12 f.imm).extractLsb' 0 12 :=
    (BitVec.toInt_inj.mp imm).trans BitVec.extractLsb'_eq_self.symm
  exact ⟨rfl, .of_extractLsb' whole (by decide), rfl, .of_toNat rs1, rfl, .of_toNat funct3, rfl, .of_toNat rd,
    rfl, .of_toNat opcode, rfl⟩

theorem SType.unpack_pack_eq_cut (f : SType) : unpack f.pack = f.cut := by
  rw [unpack_pack, BitVec.toInt_ofInt]
  rfl

theorem SType.laidOut_pack (f : SType) : LaidOut f.pack f.layout 32 := by
  obtain ⟨_, rs2, rs1, funct3, opcode⟩ := mk.inj f.unpack_pack
  obtain ⟨high, low⟩ := f.slices
  exact ⟨rfl, .of_extractLsb' high (by decide), rfl, .of_toNat rs2, rfl, .of_toNat rs1, rfl, .of_toNat funct3,
    rfl, .of_extractLsb' low (by decide), rfl, .of_toNat opcode, rfl⟩

theorem BType.unpack_pack_eq_cut (f : BType) : unpack f.pack = f.cut := by
  rw [unpack_pack, BitVec.toInt_ofInt]
  rfl

theorem BType.laidOut_pack (f : BType) : LaidOut f.pack f.layout 32 := by
  obtain ⟨_, rs2, rs1, funct3, opcode⟩ := mk.inj f.unpack_pack
  obtain ⟨top, next, middle, low⟩ := f.slices
  exact ⟨rfl, .of_extractLsb' top (by decide), rfl, .of_extractLsb' middle (by decide), rfl, .of_toNat rs2,
    rfl, .of_toNat rs1, rfl, .of_toNat funct3, rfl, .of_extractLsb' low (by decide),
    rfl, .of_extractLsb' next (by decide), rfl, .of_toNat opcode, rfl⟩

theorem UType.laidOut_pack (f : UType) : LaidOut f.pack f.layout 32 := by
  obtain ⟨imm, rd, opcode⟩ := mk.inj f.unpack_pack
  exact ⟨rfl, .of_toNat imm, rfl, .of_toNat rd, rfl, .of_toNat opcode, rfl⟩

theorem JType.unpack_pack_eq_cut (f : JType) : unpack f.pack = f.cut := by
  rw [unpack_pack, BitVec.toInt_ofInt]
  rfl

theorem JType.laidOut_pack (f : JType) : LaidOut f.pack f.layout 32 := by
  obtain ⟨_, rd, opcode⟩ := mk.inj f.unpack_pack
  obtain ⟨top, middle, next, low⟩ := f.slices
  exact ⟨rfl, .of_extractLsb' top (by decide), rfl, .of_extractLsb' low (by decide), rfl,
    .of_extractLsb' next (by decide), rfl, .of_extractLsb' middle (by decide), rfl, .of_toNat rd,
    rfl, .of_toNat opcode, rfl⟩

end RiscV

/-- All nine layouts are lossless. Fields of any size are cut to their widths, signed ones to the signed range of their
width and distances to even numbers; any word is the packing of its fields, but for the opcode bits of a register
instruction of MIPS, which are cleared. No field reaches into the bits of another. -/
theorem layouts_lossless :
    (Lossless Mips.RType.pack Mips.RType.unpack Mips.RType.cut (Word.clear · 31 26) Mips.RType.layout ∧
      Lossless Mips.IType.pack Mips.IType.unpack Mips.IType.cut id Mips.IType.layout ∧
      Lossless Mips.JType.pack Mips.JType.unpack Mips.JType.cut id Mips.JType.layout) ∧
    Lossless RiscV.RType.pack RiscV.RType.unpack RiscV.RType.cut id RiscV.RType.layout ∧
    Lossless RiscV.IType.pack RiscV.IType.unpack RiscV.IType.cut id RiscV.IType.layout ∧
    Lossless RiscV.SType.pack RiscV.SType.unpack RiscV.SType.cut id RiscV.SType.layout ∧
    Lossless RiscV.BType.pack RiscV.BType.unpack RiscV.BType.cut id RiscV.BType.layout ∧
    Lossless RiscV.UType.pack RiscV.UType.unpack RiscV.UType.cut id RiscV.UType.layout ∧
    Lossless RiscV.JType.pack RiscV.JType.unpack RiscV.JType.cut id RiscV.JType.layout := by
  refine ⟨⟨?_, ?_, ?_⟩, ?_, ?_, ?_, ?_, ?_, ?_⟩
  · exact .of_inverse Mips.RType.unpack_pack Mips.RType.pack_unpack Mips.RType.laidOut_pack
  · exact .of_inverse Mips.IType.unpack_pack Mips.IType.pack_unpack Mips.IType.laidOut_pack
  · exact .of_inverse Mips.JType.unpack_pack Mips.JType.pack_unpack Mips.JType.laidOut_pack
  · exact .of_inverse RiscV.RType.unpack_pack RiscV.RType.pack_unpack RiscV.RType.laidOut_pack
  · exact .of_inverse RiscV.IType.unpack_pack_eq_cut RiscV.IType.pack_unpack RiscV.IType.laidOut_pack
  · exact .of_inverse RiscV.SType.unpack_pack_eq_cut RiscV.SType.pack_unpack RiscV.SType.laidOut_pack
  · exact .of_inverse RiscV.BType.unpack_pack_eq_cut RiscV.BType.pack_unpack RiscV.BType.laidOut_pack
  · exact .of_inverse RiscV.UType.unpack_pack RiscV.UType.pack_unpack RiscV.UType.laidOut_pack
  · exact .of_inverse RiscV.JType.unpack_pack_eq_cut RiscV.JType.pack_unpack RiscV.JType.laidOut_pack

end RiscAsm
