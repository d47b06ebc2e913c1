import Mathlib
import RiscAsm.Mips.Layout
import RiscAsm.RiscV.Layout

namespace RiscAsm

theorem toNat_append_eq {m n : Nat} (x : BitVec m) (y : BitVec n) : (x ++ y).toNat = x.toNat * 2 ^ n + y.toNat := by
  rw [BitVec.toNat_append, ← Nat.shiftLeft_add_eq_or_of_lt y.isLt, Nat.shiftLeft_eq]

theorem toNat_extractLsb'_eq {n : Nat} (x : BitVec n) (lo len : Nat) :
    (x.extractLsb' lo len).toNat = x.toNat / 2 ^ lo % 2 ^ len := by
  rw [BitVec.extractLsb'_toNat, Nat.shiftRight_eq_div_pow]

theorem Word.bits_eq (word : Word) (hi lo : Nat) : bits word hi lo = word.toNat / 2 ^ lo % 2 ^ (hi + 1 - lo) :=
  toNat_extractLsb'_eq word lo _

/-- A signed field holds exactly the numbers of its range. -/
theorem toInt_ofInt_eq_iff {width : Nat} (positive : 0 < width) (value : Int) :
    (BitVec.ofInt width value).toInt = value ↔ -2 ^ (width - 1) ≤ value ∧ value < 2 ^ (width - 1) := by
  have double : (2 : Int) ^ width = 2 * 2 ^ (width - 1) := by
    rw [← pow_succ', Nat.sub_add_cancel positive]
  constructor
  · intro same
    have lower := BitVec.le_toInt (BitVec.ofInt width value)
    have upper := BitVec.toInt_lt (x := BitVec.ofInt width value)
    rw [same] at lower upper
    exact ⟨lower, upper⟩
  · rintro ⟨lower, upper⟩
    rw [BitVec.toInt_ofInt]
    refine Int.bmod_eq_of_le ?_ ?_ <;> push_cast <;> omega

theorem toNat_ofInt_eq_iff {width : Nat} (value : Int) :
    ((BitVec.ofInt width value).toNat : Int) = value ↔ 0 ≤ value ∧ value < 2 ^ width := by
  rw [BitVec.toNat_ofInt, Int.toNat_of_nonneg (Int.emod_nonneg _ (by positivity))]
  constructor
  · intro same
    rw [← same]
    exact ⟨Int.emod_nonneg _ (by positivity), by exact_mod_cast Int.emod_lt_of_pos _ (by positivity)⟩
  · rintro ⟨lower, upper⟩
    exact Int.emod_eq_of_lt lower (by exact_mod_cast upper)

/-- Clearing the lowest bit of a number clears that of the field it is put into. -/
theorem toNat_ofInt_even {width : Nat} (positive : 0 < width) (value : Int) :
    (BitVec.ofInt width (value / 2 * 2)).toNat = (BitVec.ofInt width value).toNat / 2 * 2 := by
  obtain ⟨n, rfl⟩ := Nat.exists_eq_succ_of_ne_zero positive.ne'
  have parts : value % (2 * 2 ^ n) = 2 * (value / 2 % 2 ^ n) + value % 2 := by
    have half := Int.emod_add_mul_ediv (value / 2) (2 ^ n)
    have lower := Int.emod_nonneg (value / 2) (b := 2 ^ n) (by positivity)
    have upper := Int.emod_lt_of_pos (value / 2) (b := 2 ^ n) (by positivity)
    refine ((Int.ediv_emod_unique (q := value / 2 / 2 ^ n) (by positivity)).mpr ⟨?_, by omega, by omega⟩).2
    rw [mul_assoc]
    omega
  have cleared : value / 2 * 2 % (2 * 2 ^ n) = 2 * (value / 2 % 2 ^ n) := by
    rw [mul_comm, Int.mul_emod_mul_of_pos _ _ (by decide)]
  have double : ((2 ^ (n + 1) : Nat) : Int) = 2 * 2 ^ n := by
    rw [pow_succ']
    push_cast
    rfl
  simp only [BitVec.toNat_ofInt, double, parts, cleared]
  omega

namespace Mips

theorem RType.toNat_pack (f : RType) :
    f.pack.toNat = f.rs % 32 * 2 ^ 21 + f.rt % 32 * 2 ^ 16 + f.rd % 32 * 2 ^ 11 + f.shamt % 32 * 2 ^ 6 +
      f.funct % 64 := by
  simp only [pack, toNat_append_eq, BitVec.toNat_ofNat]
  omega

theorem IType.toNat_pack (f : IType) :
    f.pack.toNat = f.opcode % 64 * 2 ^ 26 + f.rs % 32 * 2 ^ 21 + f.rt % 32 * 2 ^ 16 + f.imm % 2 ^ 16 := by
  simp only [pack, toNat_append_eq, BitVec.toNat_ofNat]
  omega

theorem JType.toNat_pack (f : JType) : f.pack.toNat = f.opcode % 64 * 2 ^ 26 + f.target % 2 ^ 26 := by
  simp only [pack, toNat_append_eq, BitVec.toNat_ofNat]

theorem RType.unpack_pack (f : RType) :
    unpack f.pack = ⟨f.rs % 32, f.rt % 32, f.rd % 32, f.shamt % 32, f.funct % 64⟩ := by
  simp only [unpack, Word.bits_eq, toNat_pack, mk.injEq]
  omega

theorem RType.opcodeOf_pack (f : RType) : opcodeOf f.pack = 0 := by
  simp only [opcodeOf, Word.bits_eq, toNat_pack]
  omega

theorem IType.unpack_pack (f : IType) :
    unpack f.pack = ⟨f.opcode % 64, f.rs % 32, f.rt % 32, f.imm % 2 ^ 16⟩ := by
  simp only [unpack, opcodeOf, Word.bits_eq, toNat_pack, mk.injEq]
  omega

theorem JType.unpack_pack (f : JType) : unpack f.pack = ⟨f.opcode % 64, f.target % 2 ^ 26⟩ := by
  simp only [unpack, opcodeOf, Word.bits_eq, toNat_pack, mk.injEq]
  omega

end Mips

namespace RiscV

theorem RType.toNat_pack (f : RType) :
    f.pack.toNat = f.funct7 % 128 * 2 ^ 25 + f.rs2 % 32 * 2 ^ 20 + f.rs1 % 32 * 2 ^ 15 + f.funct3 % 8 * 2 ^ 12 +
      f.rd % 32 * 2 ^ 7 + f.opcode % 128 := by
  simp only [pack, toNat_append_eq, BitVec.toNat_ofNat]
  omega

theorem IType.toNat_pack (f : IType) :
    f.pack.toNat = (BitVec.ofInt 12 f.imm).toNat * 2 ^ 20 + f.rs1 % 32 * 2 ^ 15 + f.funct3 % 8 * 2 ^ 12 +
      f.rd % 32 * 2 ^ 7 + f.opcode % 128 := by
  simp only [pack, toNat_append_eq, BitVec.toNat_ofNat]
  omega

theorem SType.toNat_pack (f : SType) :
    f.pack.toNat = ((BitVec.ofInt 12 f.imm).extractLsb' 5 7).toNat * 2 ^ 25 + f.rs2 % 32 * 2 ^ 20 +
      f.rs1 % 32 * 2 ^ 15 + f.funct3 % 8 * 2 ^ 12 + ((BitVec.ofInt 12 f.imm).extractLsb' 0 5).toNat * 2 ^ 7 +
      f.opcode % 128 := by
  simp only [pack, toNat_append_eq, BitVec.toNat_ofNat]
  omega

theorem BType.toNat_pack (f : BType) :
    f.pack.toNat = ((BitVec.ofInt 13 f.imm).extractLsb' 12 1).toNat * 2 ^ 31 +
      ((BitVec.ofInt 13 f.imm).extractLsb' 5 6).toNat * 2 ^ 25 + f.rs2 % 32 * 2 ^ 20 + f.rs1 % 32 * 2 ^ 15 +
      f.funct3 % 8 * 2 ^ 12 + ((BitVec.ofInt 13 f.imm).extractLsb' 1 4).toNat * 2 ^ 8 +
      ((BitVec.ofInt 13 f.imm).extractLsb' 11 1).toNat * 2 ^ 7 + f.opcode % 128 := by
  simp only [pack, toNat_append_eq, BitVec.toNat_ofNat]
  omega

theorem UType.toNat_pack (f : UType) :
    f.pack.toNat = f.imm % 2 ^ 20 * 2 ^ 12 + f.rd % 32 * 2 ^ 7 + f.opcode % 128 := by
  simp only [pack, toNat_append_eq, BitVec.toNat_ofNat]
  omega

theorem JType.toNat_pack (f : JType) :
    f.pack.toNat = ((BitVec.ofInt 21 f.imm).extractLsb' 20 1).toNat * 2 ^ 31 +
      ((BitVec.ofInt 21 f.imm).extractLsb' 1 10).toNat * 2 ^ 21 +
      ((BitVec.ofInt 21 f.imm).extractLsb' 11 1).toNat * 2 ^ 20 +
      ((BitVec.ofInt 21 f.imm).extractLsb' 12 8).toNat * 2 ^ 12 + f.rd % 32 * 2 ^ 7 + f.opcode % 128 := by
  simp only [pack, toNat_append_eq, BitVec.toNat_ofNat]
  omega

theorem RType.unpack_pack (f : RType) :
    unpack f.pack = ⟨f.funct7 % 128, f.rs2 % 32, f.rs1 % 32, f.funct3 % 8, f.rd % 32, f.opcode % 128⟩ := by
  simp only [unpack, opcodeOf, Word.bits_eq, toNat_pack, mk.injEq]
  omega

theorem IType.unpack_pack (f : IType) :
    unpack f.pack = ⟨(BitVec.ofInt 12 f.imm).toInt, f.rs1 % 32, f.funct3 % 8, f.rd % 32, f.opcode % 128⟩ := by
  have bound := (BitVec.ofInt 12 f.imm).isLt
  have imm : f.pack.extractLsb' 20 12 = BitVec.ofInt 12 f.imm := by
    rw [BitVec.toNat_eq, toNat_extractLsb'_eq, toNat_pack]
    omega
  simp only [unpack, imm, opcodeOf, Word.bits_eq, toNat_pack, mk.injEq, true_and]
  omega

/-- Two slices of the offset stand in different places of the word. -/
theorem SType.slices (f : SType) :
    f.pack.extractLsb' 25 7 = (BitVec.ofInt 12 f.imm).extractLsb' 5 7 ∧
      f.pack.extractLsb' 7 5 = (BitVec.ofInt 12 f.imm).extractLsb' 0 5 := by
  have high := ((BitVec.ofInt 12 f.imm).extractLsb' 5 7).isLt
  have low := ((BitVec.ofInt 12 f.imm).extractLsb' 0 5).isLt
  simp only [BitVec.toNat_eq, toNat_extractLsb'_eq f.pack, toNat_pack]
  omega

theorem SType.unpack_pack (f : SType) :
    unpack f.pack = ⟨(BitVec.ofInt 12 f.imm).toInt, f.rs2 % 32, f.rs1 % 32, f.funct3 % 8, f.opcode % 128⟩ := by
  have high := ((BitVec.ofInt 12 f.imm).extractLsb' 5 7).isLt
  have low := ((BitVec.ofInt 12 f.imm).extractLsb' 0 5).isLt
  have joined (imm : BitVec 12) : imm.extractLsb' 5 7 ++ imm.extractLsb' 0 5 = imm := by
    rw [BitVec.toNat_eq, toNat_append_eq, toNat_extractLsb'_eq, toNat_extractLsb'_eq]
    omega
  simp only [unpack, f.slices, joined, opcodeOf, Word.bits_eq, toNat_pack, mk.injEq, true_and]
  omega

theorem BType.slices (f : BType) :
    f.pack.extractLsb' 31 1 = (BitVec.ofInt 13 f.imm).extractLsb' 12 1 ∧
      f.pack.extractLsb' 7 1 = (BitVec.ofInt 13 f.imm).extractLsb' 11 1 ∧
      f.pack.extractLsb' 25 6 = (BitVec.ofInt 13 f.imm).extractLsb' 5 6 ∧
      f.pack.extractLsb' 8 4 = (BitVec.ofInt 13 f.imm).extractLsb' 1 4 := by
  have top := ((BitVec.ofInt 13 f.imm).extractLsb' 12 1).isLt
  have next := ((BitVec.ofInt 13 f.imm).extractLsb' 11 1).isLt
  have middle := ((BitVec.ofInt 13 f.imm).extractLsb' 5 6).isLt
  have low := ((BitVec.ofInt 13 f.imm).extractLsb' 1 4).isLt
  simp only [BitVec.toNat_eq, toNat_extractLsb'_eq f.pack, toNat_pack]
  omega

/-- The slices of an offset without its lowest bit, put in order again. -/
theorem BType.joined (imm : Int) :
    (BitVec.ofInt 13 imm).extractLsb' 12 1 ++ (BitVec.ofInt 13 imm).extractLsb' 11 1 ++
      (BitVec.ofInt 13 imm).extractLsb' 5 6 ++ (BitVec.ofInt 13 imm).extractLsb' 1 4 ++ 0#1 =
        BitVec.ofInt 13 (imm / 2 * 2) := by
  have cleared := toNat_ofInt_even (show 0 < 13 by decide) imm
  have bound := (BitVec.ofInt 13 imm).isLt
  generalize BitVec.ofInt 13 imm = whole at *
  rw [BitVec.toNat_eq, cleared]
  simp only [toNat_append_eq, toNat_extractLsb'_eq, BitVec.toNat_ofNat]
  omega

theorem BType.unpack_pack (f : BType) :
    unpack f.pack =
      ⟨(BitVec.ofInt 13 (f.imm / 2 * 2)).toInt, f.rs2 % 32, f.rs1 % 32, f.funct3 % 8, f.opcode % 128⟩ := by
  have top := ((BitVec.ofInt 13 f.imm).extractLsb' 12 1).isLt
  have next := ((BitVec.ofInt 13 f.imm).extractLsb' 11 1).isLt
  have middle := ((BitVec.ofInt 13 f.imm).extractLsb' 5 6).isLt
  have low := ((BitVec.ofInt 13 f.imm).extractLsb' 1 4).isLt
  simp only [unpack, f.slices, joined, opcodeOf, Word.bits_eq, toNat_pack, mk.injEq, true_and]
  omega

theorem UType.unpack_pack (f : UType) : unpack f.pack = ⟨f.imm % 2 ^ 20, f.rd % 32, f.opcode % 128⟩ := by
  simp only [unpack, opcodeOf, Word.bits_eq, toNat_pack, mk.injEq]
  omega

theorem JType.slices (f : JType) :
    f.pack.extractLsb' 31 1 = (BitVec.ofInt 21 f.imm).extractLsb' 20 1 ∧
      f.pack.extractLsb' 12 8 = (BitVec.ofInt 21 f.imm).extractLsb' 12 8 ∧
      f.pack.extractLsb' 20 1 = (BitVec.ofInt 21 f.imm).extractLsb' 11 1 ∧
      f.pack.extractLsb' 21 10 = (BitVec.ofInt 21 f.imm).extractLsb' 1 10 := by
  have top := ((BitVec.ofInt 21 f.imm).extractLsb' 20 1).isLt
  have next := ((BitVec.ofInt 21 f.imm).extractLsb' 12 8).isLt
  have middle := ((BitVec.ofInt 21 f.imm).extractLsb' 11 1).isLt
  have low := ((BitVec.ofInt 21 f.imm).extractLsb' 1 10).isLt
  simp only [BitVec.toNat_eq, toNat_extractLsb'_eq f.pack, toNat_pack]
  omega

theorem JType.joined (imm : Int) :
    (BitVec.ofInt 21 imm).extractLsb' 20 1 ++ (BitVec.ofInt 21 imm).extractLsb' 12 8 ++
      (BitVec.ofInt 21 imm).extractLsb' 11 1 ++ (BitVec.ofInt 21 imm).extractLsb' 1 10 ++ 0#1 =
        BitVec.ofInt 21 (imm / 2 * 2) := by
  have cleared := toNat_ofInt_even (show 0 < 21 by decide) imm
  have bound := (BitVec.ofInt 21 imm).isLt
  generalize BitVec.ofInt 21 imm = whole at *
  rw [BitVec.toNat_eq, cleared]
  simp only [toNat_append_eq, toNat_extractLsb'_eq, BitVec.toNat_ofNat]
  omega

theorem JType.unpack_pack (f : JType) :
    unpack f.pack = ⟨(BitVec.ofInt 21 (f.imm / 2 * 2)).toInt, f.rd % 32, f.opcode % 128⟩ := by
  have top := ((BitVec.ofInt 21 f.imm).extractLsb' 20 1).isLt
  have next := ((BitVec.ofInt 21 f.imm).extractLsb' 12 8).isLt
  have middle := ((BitVec.ofInt 21 f.imm).extractLsb' 11 1).isLt
  have low := ((BitVec.ofInt 21 f.imm).extractLsb' 1 10).isLt
  simp only [unpack, f.slices, joined, opcodeOf, Word.bits_eq, toNat_pack, mk.injEq, true_and]
  omega

end RiscV

end RiscAsm
