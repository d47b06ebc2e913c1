import RiscAsm.Proofs.FieldLayouts

namespace RiscAsm

namespace Word

/-- A word with zeros in the bits `hi` down to `lo`. -/
def clear (word : Word) (hi lo : Nat) : Word := word &&& ~~~((BitVec.allOnes (hi + 1 - lo)).setWidth 32 <<< lo)

theorem getLsbD_clear (word : Word) {hi : Nat} (inside : hi < 32) (lo i : Nat) :
    (word.clear hi lo).getLsbD i = (word.getLsbD i && !decide (lo ≤ i ∧ i ≤ hi)) := by
  by_cases small : i < 32
  · simp only [clear, BitVec.getLsbD_and, BitVec.getLsbD_not, BitVec.getLsbD_shiftLeft, BitVec.getLsbD_setWidth,
      BitVec.getLsbD_allOnes, small, decide_true, Bool.true_and]
    congr 2
    grind
  · have outside : 32 ≤ i := Nat.le_of_not_lt small
    rw [BitVec.getLsbD_of_ge _ i outside, BitVec.getLsbD_of_ge _ i outside, Bool.false_and]

theorem bits_clear_apart (word : Word) {hi lo high low : Nat} (inside : hi < 32) (apart : high < lo ∨ hi < low) :
    bits (word.clear hi lo) high low = bits word high low := by
  unfold bits
  congr 1
  refine BitVec.eq_of_getLsbD_eq fun i bound => ?_
  have outside : ¬ (lo ≤ low + i ∧ low + i ≤ hi) := by omega
  simp [getLsbD_clear word inside, bound, outside]

theorem bits_clear_inside (word : Word) {hi lo high low : Nat} (inside : hi < 32) (within : lo ≤ low ∧ high ≤ hi) :
    bits (word.clear hi lo) high low = 0 := by
  have zero : (word.clear hi lo).extractLsb' low (high + 1 - low) = 0#_ := by
    refine BitVec.eq_of_getLsbD_eq fun i bound => ?_
    have covered : lo ≤ low + i ∧ low + i ≤ hi := by omega
    simp [getLsbD_clear word inside, covered]
  rw [bits, zero, BitVec.toNat_zero]

/-- A slice that is read as a number and put into a field of its width stays as it was. -/
theorem ofNat_bits (word : Word) {hi lo width : Nat} (same : hi + 1 - lo = width) :
    BitVec.ofNat width (bits word hi lo) = word.extractLsb' lo width := by
  subst same
  rw [bits, BitVec.ofNat_toNat, BitVec.setWidth_eq]

end Word

/-! Each layout covers its word without gaps, so the fields of a word make up that word again. -/

namespace Mips

theorem RType.pack_unpack_of_opcodeOf {word : Word} (special : opcodeOf word = 0) : (unpack word).pack = word := by
  have bound := word.isLt
  rw [opcodeOf, Word.bits_eq] at special
  rw [BitVec.toNat_eq, toNat_pack]
  simp only [unpack, Word.bits_eq]
  omega

theorem IType.pack_unpack (word : Word) : (unpack word).pack = word := by
  simp (disch := rfl) only [pack, unpack, opcodeOf, Word.ofNat_bits,
    BitVec.extractLsb'_append_extractLsb'_eq_extractLsb']
  exact BitVec.extractLsb'_eq_self

theorem JType.pack_unpack (word : Word) : (unpack word).pack = word := by
  simp (disch := rfl) only [pack, unpack, opcodeOf, Word.ofNat_bits,
    BitVec.extractLsb'_append_extractLsb'_eq_extractLsb']
  exact BitVec.extractLsb'_eq_self

end Mips

namespace RiscV

theorem RType.pack_unpack (word : Word) : (unpack word).pack = word := by
  simp (disch := rfl) only [pack, unpack, opcodeOf, Word.ofNat_bits,
    BitVec.extractLsb'_append_extractLsb'_eq_extractLsb']
  exact BitVec.extractLsb'_eq_self

theorem IType.pack_unpack (word : Word) : (unpack word).pack = word := by
  simp (disch := rfl) only [pack, unpack, opcodeOf, Word.ofNat_bits, BitVec.ofInt_toInt,
    BitVec.extractLsb'_append_extractLsb'_eq_extractLsb']
  exact BitVec.extractLsb'_eq_self

/-- An offset put together from pieces is cut into these pieces again. -/
theorem SType.pieces (high : BitVec 7) (low : BitVec 5) :
    (high ++ low).extractLsb' 5 7 = high ∧ (high ++ low).extractLsb' 0 5 = low := by
  have bounds := And.intro high.isLt low.isLt
  simp only [BitVec.toNat_eq, toNat_extractLsb'_eq, toNat_append_eq]
  omega

theorem SType.pack_unpack (word : Word) : (unpack word).pack = word := by
  simp (disch := rfl) only [pack, unpack, opcodeOf, Word.ofNat_bits, BitVec.ofInt_toInt, pieces,
    BitVec.extractLsb'_append_extractLsb'_eq_extractLsb']
  exact BitVec.extractLsb'_eq_self

theorem BType.pieces (top next : BitVec 1) (middle : BitVec 6) (low : BitVec 4) :
    (top ++ next ++ middle ++ low ++ 0#1).extractLsb' 12 1 = top ∧
      (top ++ next ++ middle ++ low ++ 0#1).extractLsb' 11 1 = next ∧
      (top ++ next ++ middle ++ low ++ 0#1).extractLsb' 5 6 = middle ∧
      (top ++ next ++ middle ++ low ++ 0#1).extractLsb' 1 4 = low := by
  have bounds := And.intro (And.intro top.isLt next.isLt) (And.intro middle.isLt low.isLt)
  simp only [BitVec.toNat_eq, toNat_extractLsb'_eq, toNat_append_eq, BitVec.toNat_ofNat]
  omega

theorem BType.pack_unpack (word : Word) : (unpack word).pack = word := by
  simp (disch := rfl) only [pack, unpack, opcodeOf, Word.ofNat_bits, BitVec.ofInt_toInt, pieces,
    BitVec.extractLsb'_append_extractLsb'_eq_extractLsb']
  exact BitVec.extractLsb'_eq_self

theorem UType.pack_unpack (word : Word) : (unpack word).pack = word := by
  simp (disch := rfl) only [pack, unpack, opcodeOf, Word.ofNat_bits,
    BitVec.extractLsb'_append_extractLsb'_eq_extractLsb']
  exact BitVec.extractLsb'_eq_self

theorem JType.pieces (top next : BitVec 1) (middle : BitVec 8) (low : BitVec 10) :
    (top ++ middle ++ next ++ low ++ 0#1).extractLsb' 20 1 = top ∧
      (top ++ middle ++ next ++ low ++ 0#1).extractLsb' 12 8 = middle ∧
      (top ++ middle ++ next ++ low ++ 0#1).extractLsb' 11 1 = next ∧
      (top ++ middle ++ next ++ low ++ 0#1).extractLsb' 1 10 = low := by
  have bounds := And.intro (And.intro top.isLt next.isLt) (And.intro middle.isLt low.isLt)
  simp only [BitVec.toNat_eq, toNat_extractLsb'_eq, toNat_append_eq, BitVec.toNat_ofNat]
  omega

theorem JType.pack_unpack (word : Word) : (unpack word).pack = word := by
  simp (disch := rfl) only [pack, unpack, opcodeOf, Word.ofNat_bits, BitVec.ofInt_toInt, pieces,
    BitVec.extractLsb'_append_extractLsb'_eq_extractLsb']
  exact BitVec.extractLsb'_eq_self

end RiscV

end RiscAsm
