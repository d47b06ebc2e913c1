import RiscAsm.Proofs.OperandMeaning
import RiscAsm.Proofs.RepackedFields

namespace RiscAsm

namespace Machine

/-! Operations on machine integers. One that overflows has no result, and neither has a shift by all places or more. -/

variable {n : Nat}

def shift? (shifted : BitVec n → Nat → BitVec n) (a : BitVec n) (count : Word) : Option (BitVec n) :=
  if count.toNat < n then some (shifted a count.toNat) else none

def shiftLeft? : BitVec n → Word → Option (BitVec n) := shift? (· <<< ·)

def shiftRight? : BitVec n → Word → Option (BitVec n) := shift? (· >>> ·)

/-- A shift to the right that repeats the sign. -/
def signedShiftRight? : BitVec n → Word → Option (BitVec n) := shift? BitVec.sshiftRight

def unless? (overflows : Bool) (result : BitVec n) : Option (BitVec n) := if overflows then none else some result

def add? (a b : BitVec n) : Option (BitVec n) := unless? (a.uaddOverflow b) (a + b)

def sub? (a b : BitVec n) : Option (BitVec n) := unless? (a.usubOverflow b) (a - b)

def signedSub? (a b : BitVec n) : Option (BitVec n) := unless? (a.ssubOverflow b) (a - b)

def neg? (a : BitVec n) : Option (BitVec n) := unless? a.negOverflow (-a)

/-- Ones in the lowest bits, of which the word has more. -/
def ones? (width : Word) : Option Word := do
  let above ← shiftLeft? 1#32 width
  sub? above 1#32

def mask? (width : Word) : Option Word := if width = 32#32 then some (BitVec.allOnes 32) else ones? width

/-- The bits `hi` down to `lo`, moved down to the lowest ones. -/
def bits? (word hi lo : Word) : Option Word :=
  if lo ≤ hi ∧ hi < 32#32 then do
    let span ← sub? hi lo
    let width ← add? span 1#32
    if width = 32#32 then return word
    let moved ← shiftRight? word lo
    let ones ← ones? width
    return moved &&& ones
  else none

/-- The lowest bits, moved up to the highest ones and back again together with their sign. -/
def signExtend? (word width : Word) : Option Word := do
  let unused ← sub? 32#32 width
  let moved ← shiftLeft? word unused
  signedShiftRight? moved unused

/-- The bits of a number of 64 bits in a signed field, or its fault. -/
def signedField? (value : BitVec 64) (width : Word) (what : Text) : Option (Except Fault Word) := do
  let below ← sub? width 1#32
  let half ← shiftLeft? 1#64 below
  let min ← neg? half
  let max ← signedSub? half 1#64
  if value.slt min || max.slt value then
    return .error (.invalidOperand (.signedRange what value.toInt width.toNat))
  let ones ← mask? width
  return .ok (value.setWidth 32 &&& ones)

def unsignedField? (value : BitVec 64) (width : Word) (what : Text) : Option (Except Fault Word) := do
  let above ← shiftLeft? 1#64 width
  let max ← signedSub? above 1#64
  if value.slt 0#64 || max.slt value then
    return .error (.invalidOperand (.unsignedRange what value.toInt width.toNat))
  return .ok (value.setWidth 32)

variable {width lo : Nat}

theorem toNat_ofNat {a : Nat} (small : a < 2 ^ n) : (BitVec.ofNat n a).toNat = a := by
  rw [BitVec.toNat_ofNat, Nat.mod_eq_of_lt small]

theorem shift?_ofNat (shifted : BitVec n → Nat → BitVec n) (a : BitVec n) {count : Nat} (inside : count < n)
    (small : count < 2 ^ 32) : shift? shifted a (BitVec.ofNat 32 count) = some (shifted a count) := by
  rw [shift?, toNat_ofNat small, if_pos inside]

theorem sub?_ofNat {a b : Nat} (le : b ≤ a) (small : a < 2 ^ n) :
    sub? (BitVec.ofNat n a) (BitVec.ofNat n b) = some (BitVec.ofNat n (a - b)) := by
  have smallToo : b < 2 ^ n := by omega
  have fits : (BitVec.ofNat n a).usubOverflow (BitVec.ofNat n b) = false := by
    rw [BitVec.usubOverflow, toNat_ofNat small, toNat_ofNat smallToo]
    simpa using le
  rw [sub?, fits, BitVec.ofNat_sub_ofNat_of_le _ _ smallToo le]
  rfl

theorem add?_ofNat {a b : Nat} (small : a + b < 2 ^ n) :
    add? (BitVec.ofNat n a) (BitVec.ofNat n b) = some (BitVec.ofNat n (a + b)) := by
  have fits : (BitVec.ofNat n a).uaddOverflow (BitVec.ofNat n b) = false := by
    rw [BitVec.uaddOverflow, toNat_ofNat (by omega), toNat_ofNat (by omega)]
    simpa using small
  rw [add?, fits, BitVec.ofNat_add]
  rfl

theorem one_shiftLeft (n width : Nat) : 1#n <<< width = BitVec.ofNat n (2 ^ width) := by
  rw [BitVec.toNat_eq, BitVec.toNat_shiftLeft, BitVec.toNat_ofNat, BitVec.toNat_ofNat, Nat.shiftLeft_eq,
    Nat.mod_mul_mod, Nat.one_mul]

theorem ones?_ofNat (inside : width < 32) : ones? (BitVec.ofNat 32 width) = some (BitVec.ofNat 32 (2 ^ width - 1)) := by
  have shifted := shift?_ofNat (· <<< ·) 1#32 inside (by omega)
  rw [ones?, shiftLeft?, shifted, one_shiftLeft]
  exact sub?_ofNat Nat.one_le_two_pow (Nat.pow_lt_pow_right (by decide) inside)

theorem ofNat_ne (part : width < 32) : BitVec.ofNat 32 width ≠ 32#32 := by
  intro same
  have := congrArg BitVec.toNat same
  rw [toNat_ofNat (by omega), toNat_ofNat (by decide)] at this
  omega

theorem mask?_ofNat (inside : width ≤ 32) :
    mask? (BitVec.ofNat 32 width) = some (BitVec.ofNat 32 (2 ^ width - 1)) := by
  rcases Nat.lt_or_eq_of_le inside with part | rfl
  · rw [mask?, if_neg (ofNat_ne part), ones?_ofNat part]
  · rfl

theorem and_ofNat (word : Word) (inside : width ≤ 32) :
    word &&& BitVec.ofNat 32 (2 ^ width - 1) = BitVec.ofNat 32 (word.toNat % 2 ^ width) := by
  have small : 2 ^ width ≤ 2 ^ 32 := Nat.pow_le_pow_right (by decide) inside
  have below : word.toNat % 2 ^ width < 2 ^ width := Nat.mod_lt _ (by positivity)
  rw [BitVec.toNat_eq, BitVec.toNat_and, toNat_ofNat (by omega), toNat_ofNat (by omega),
    Nat.and_two_pow_sub_one_eq_mod]

/-- The slice of a word is what a shift and a mask leave of it. -/
theorem bits?_ofNat (positive : 0 < width) (inside : lo + width ≤ 32) (word : Word) :
    bits? word (BitVec.ofNat 32 (lo + width - 1)) (BitVec.ofNat 32 lo) =
      some (BitVec.ofNat 32 (Word.bits word (lo + width - 1) lo)) := by
  have ordered : BitVec.ofNat 32 lo ≤ BitVec.ofNat 32 (lo + width - 1) ∧ BitVec.ofNat 32 (lo + width - 1) < 32#32 := by
    rw [BitVec.le_def, BitVec.lt_def, toNat_ofNat (by omega), toNat_ofNat (by omega), toNat_ofNat (by decide)]
    omega
  have span := sub?_ofNat (n := 32) (show lo ≤ lo + width - 1 by omega) (by omega)
  have whole : Word.bits word (lo + width - 1) lo = word.toNat / 2 ^ lo % 2 ^ width := by
    rw [Word.bits_eq, show lo + width - 1 + 1 - lo = width by omega]
  have full := add?_ofNat (n := 32) (a := lo + width - 1 - lo) (b := 1) (by omega)
  rw [show lo + width - 1 - lo + 1 = width by omega] at full
  rw [bits?, if_pos ordered, span, whole]
  simp only [Option.bind_eq_bind, Option.bind_some, full]
  rcases Nat.lt_or_eq_of_le (show width ≤ 32 by omega) with part | rfl
  · have moved := shift?_ofNat (· >>> ·) word (show lo < 32 by omega) (by omega)
    have value : (word >>> lo).toNat = word.toNat / 2 ^ lo := by
      rw [BitVec.toNat_ushiftRight, Nat.shiftRight_eq_div_pow]
    rw [if_neg (ofNat_ne part), shiftRight?, moved, ones?_ofNat part]
    simp only [Option.bind_some, and_ofNat _ part.le, value]
    rfl
  · obtain rfl : lo = 0 := by omega
    simp [Nat.mod_eq_of_lt word.isLt]

/-- Moved up until its sign is that of the word, and back, a field keeps its value. -/
theorem toInt_sshiftRight_shiftLeft (positive : 0 < width) (inside : width ≤ 32) (word : Word) :
    ((word <<< (32 - width)).sshiftRight (32 - width)).toInt = Word.signExtend word width := by
  have extended : (word <<< (32 - width)).sshiftRight (32 - width) = (word.setWidth width).signExtend 32 := by
    refine BitVec.eq_of_getLsbD_eq fun i small => ?_
    simp only [BitVec.getLsbD_sshiftRight, BitVec.getLsbD_signExtend, BitVec.getLsbD_shiftLeft,
      BitVec.getLsbD_setWidth, BitVec.msb_shiftLeft, BitVec.msb_setWidth, BitVec.getMsbD_eq_getLsbD]
    by_cases low : i < width
    · have kept : 32 - width + i < 32 := by omega
      simp [low, kept, small]
    · have sign : ¬ 32 - width + i < 32 := by omega
      have last : 32 - 1 - (32 - width) = width - 1 := by omega
      simp [low, sign, small, positive, last]
  rw [extended, BitVec.toInt_signExtend_of_le inside, Word.signExtend]

theorem signExtend?_ofNat (positive : 0 < width) (inside : width ≤ 32) (word : Word) :
    (signExtend? word (BitVec.ofNat 32 width)).map BitVec.toInt = some (Word.signExtend word width) := by
  have unused := sub?_ofNat (n := 32) inside (by decide)
  have moved := shift?_ofNat (· <<< ·) word (show 32 - width < 32 by omega) (by omega)
  have back := shift?_ofNat BitVec.sshiftRight (word <<< (32 - width)) (show 32 - width < 32 by omega) (by omega)
  simp only [signExtend?, unused, shiftLeft?, moved, signedShiftRight?, back, Option.bind_eq_bind, Option.bind_some,
    Option.map_some, toInt_sshiftRight_shiftLeft positive inside]

theorem toInt_ofNat {a : Nat} (small : a < 2 ^ 63) : (BitVec.ofNat 64 a).toInt = a := by
  rw [BitVec.toInt_eq_toNat_of_lt] <;> rw [toNat_ofNat (by omega)]
  omega

theorem neg?_ofNat {a : Nat} (small : a < 2 ^ 63) : ∃ r, neg? (BitVec.ofNat 64 a) = some r ∧ r.toInt = -a := by
  have fits : (BitVec.ofNat 64 a).negOverflow = false := by
    rw [BitVec.negOverflow, toInt_ofNat small, beq_eq_false_iff_ne]
    omega
  refine ⟨-BitVec.ofNat 64 a, by rw [neg?, fits]; rfl, ?_⟩
  rw [BitVec.toInt_neg_of_not_negOverflow (by simp [fits]), toInt_ofNat small]

theorem signedSub?_ofNat {a : Nat} (small : a < 2 ^ 63) :
    ∃ r, signedSub? (BitVec.ofNat 64 a) 1#64 = some r ∧ r.toInt = a - 1 := by
  have fits : (BitVec.ofNat 64 a).ssubOverflow 1#64 = false := by
    simp only [BitVec.ssubOverflow, toInt_ofNat small, toInt_ofNat (show 1 < 2 ^ 63 by decide), Bool.or_eq_false_iff,
      decide_eq_false_iff_not]
    omega
  refine ⟨BitVec.ofNat 64 a - 1#64, by rw [signedSub?, fits]; rfl, ?_⟩
  rw [BitVec.toInt_sub_of_not_ssubOverflow (by simp [fits]), toInt_ofNat small, toInt_ofNat (by decide), Nat.cast_one]

/-- The lowest bits of a machine integer are those of the number that it stands for. -/
theorem setWidth_and_ofNat (inside : width ≤ 32) (value : BitVec 64) :
    value.setWidth 32 &&& BitVec.ofNat 32 (2 ^ width - 1) =
      BitVec.ofNat 32 (BitVec.ofInt width value.toInt).toNat := by
  have lowest : BitVec.ofInt width value.toInt = value.setWidth width :=
    BitVec.signExtend_eq_setWidth_of_le value (by omega)
  rw [and_ofNat _ inside, lowest, BitVec.toNat_setWidth, BitVec.toNat_setWidth,
    Nat.mod_mod_of_dvd _ (pow_dvd_pow 2 inside)]

/-- A number is checked against a signed field without overflow, and its bits are the lowest of its 64 bits. -/
theorem signedField?_ofNat (positive : 0 < width) (inside : width ≤ 32) (value : BitVec 64) (what : Text) :
    signedField? value (BitVec.ofNat 32 width) what =
      some ((Operand.signedField value.toInt width what).map (BitVec.ofNat 32)) := by
  have bound : 2 ^ (width - 1) < 2 ^ 63 := Nat.pow_lt_pow_right (by decide) (by omega)
  have below := sub?_ofNat (n := 32) positive (by omega)
  have half := shift?_ofNat (· <<< ·) 1#64 (show width - 1 < 64 by omega) (by omega)
  obtain ⟨min, negated, ofMin⟩ := neg?_ofNat bound
  obtain ⟨max, lessOne, ofMax⟩ := signedSub?_ofNat bound
  push_cast at ofMin ofMax
  simp only [signedField?, below, shiftLeft?, half, one_shiftLeft, negated, lessOne, mask?_ofNat inside,
    Option.bind_eq_bind, Option.bind_some, setWidth_and_ofNat inside]
  have outside : (value.slt min || max.slt value) = true ↔ ¬ (BitVec.ofInt width value.toInt).toInt = value.toInt := by
    rw [toInt_ofInt_eq_iff positive, BitVec.slt, BitVec.slt, ofMin, ofMax, Bool.or_eq_true, decide_eq_true_eq,
      decide_eq_true_eq]
    omega
  by_cases fits : (BitVec.ofInt width value.toInt).toInt = value.toInt
  · rw [if_neg (outside.not.mpr (not_not.mpr fits)), Operand.signedField, if_pos fits]
    rfl
  · rw [if_pos (outside.mpr fits), Operand.signedField, if_neg fits, toNat_ofNat (by omega)]
    rfl

theorem unsignedField?_ofNat (inside : width ≤ 32) (value : BitVec 64) (what : Text) :
    unsignedField? value (BitVec.ofNat 32 width) what =
      some ((Operand.unsignedField value.toInt width what).map (BitVec.ofNat 32)) := by
  have bound : 2 ^ width < 2 ^ 63 := Nat.pow_lt_pow_right (by decide) (by omega)
  have above := shift?_ofNat (· <<< ·) 1#64 (show width < 64 by omega) (by omega)
  obtain ⟨max, lessOne, ofMax⟩ := signedSub?_ofNat bound
  push_cast at ofMax
  simp only [unsignedField?, shiftLeft?, above, one_shiftLeft, lessOne, Option.bind_eq_bind, Option.bind_some]
  have outside : (value.slt 0#64 || max.slt value) = true ↔
      ¬ ((BitVec.ofInt width value.toInt).toNat : Int) = value.toInt := by
    rw [toNat_ofInt_eq_iff, BitVec.slt, BitVec.slt, BitVec.toInt_zero, ofMax, Bool.or_eq_true, decide_eq_true_eq,
      decide_eq_true_eq]
    omega
  by_cases fits : ((BitVec.ofInt width value.toInt).toNat : Int) = value.toInt
  · have same : (BitVec.ofInt width value.toInt).toNat = value.toNat := by
      have small := value.isLt
      have signed := BitVec.toInt_eq_toNat_cond value
      split at signed <;> omega
    rw [if_neg (outside.not.mpr (not_not.mpr fits)), Operand.unsignedField, if_pos fits, same]
    rfl
  · rw [if_pos (outside.mpr fits), Operand.unsignedField, if_neg fits, toNat_ofNat (by omega)]
    rfl

end Machine

/-- The number that a slice of some width stands for in two's complement. -/
def twosComplement (width slice : Nat) : Int := if slice < 2 ^ (width - 1) then slice else slice - 2 ^ width

/-- What checking a number for a field of some width and reading the field back have to do with each other, and that
they can be done with machine integers. -/
structure FieldLaws (width : Nat) : Prop where
  signed_accepts : ∀ value what, (∃ bits, Operand.signedField value width what = .ok bits) ↔
    -2 ^ (width - 1) ≤ value ∧ value ≤ 2 ^ (width - 1) - 1
  signed_bits : ∀ value what bits, Operand.signedField value width what = .ok bits →
    bits < 2 ^ width ∧ Word.signExtend (BitVec.ofNat 32 bits) width = value
  unsigned_accepts : ∀ value what, (∃ bits, Operand.unsignedField value width what = .ok bits) ↔
    0 ≤ value ∧ value ≤ 2 ^ width - 1
  unsigned_bits : ∀ value what bits, Operand.unsignedField value width what = .ok bits → (bits : Int) = value
  slice_value : ∀ word lo, lo + width ≤ 32 →
    Word.signExtend (BitVec.ofNat 32 (Word.bits word (lo + width - 1) lo)) width =
      twosComplement width (word.toNat / 2 ^ lo % 2 ^ width)
  slice_only : ∀ (word other : Word) lo, lo + width ≤ 32 →
    (∀ i < width, word.getLsbD (lo + i) = other.getLsbD (lo + i)) →
      Word.bits word (lo + width - 1) lo = Word.bits other (lo + width - 1) lo
  machine_signed : ∀ value what, Machine.signedField? value (BitVec.ofNat 32 width) what =
    some ((Operand.signedField value.toInt width what).map (BitVec.ofNat 32))
  machine_unsigned : ∀ value what, Machine.unsignedField? value (BitVec.ofNat 32 width) what =
    some ((Operand.unsignedField value.toInt width what).map (BitVec.ofNat 32))
  machine_bits : ∀ word lo, lo + width ≤ 32 →
    Machine.bits? word (BitVec.ofNat 32 (lo + width - 1)) (BitVec.ofNat 32 lo) =
      some (BitVec.ofNat 32 (Word.bits word (lo + width - 1) lo))
  machine_signExtend : ∀ word, (Machine.signExtend? word (BitVec.ofNat 32 width)).map BitVec.toInt =
    some (Word.signExtend word width)

variable {width lo : Nat}

theorem toInt_eq_twosComplement (x : BitVec width) (positive : 0 < width) : x.toInt = twosComplement width x.toNat := by
  have double : 2 ^ width = 2 * 2 ^ (width - 1) := by rw [← pow_succ', Nat.sub_add_cancel positive]
  rw [BitVec.toInt_eq_toNat_cond, twosComplement]
  push_cast
  congr 1
  rw [eq_iff_iff]
  omega

/-- Extending a slice with its sign reads the slice and nothing else. -/
theorem Word.signExtend_bits (positive : 0 < width) (inside : lo + width ≤ 32) (word : Word) :
    signExtend (BitVec.ofNat 32 (bits word (lo + width - 1) lo)) width =
      twosComplement width (word.toNat / 2 ^ lo % 2 ^ width) := by
  have slice : (BitVec.ofNat 32 (bits word (lo + width - 1) lo)).setWidth width = word.extractLsb' lo width := by
    rw [BitVec.setWidth_ofNat_of_le (by omega), ofNat_bits word (by omega)]
  rw [signExtend, slice, toInt_eq_twosComplement _ positive, toNat_extractLsb'_eq]

theorem Word.bits_congr (positive : 0 < width) {word other : Word}
    (same : ∀ i < width, word.getLsbD (lo + i) = other.getLsbD (lo + i)) :
    bits word (lo + width - 1) lo = bits other (lo + width - 1) lo := by
  unfold bits
  congr 1
  refine BitVec.eq_of_getLsbD_eq fun i small => ?_
  rw [BitVec.getLsbD_extractLsb', BitVec.getLsbD_extractLsb', same i (by omega)]

/-- At every width that a word has, a signed field accepts just the numbers of its range and gives them back by sign
extension, an unsigned field accepts just the numbers of its range and holds them as they are, and a slice of a word
extends to its value in two's complement. None of the machine operations that compute this overflows. -/
theorem fieldLaws_of_width (positive : 1 ≤ width) (inside : width ≤ 32) : FieldLaws width where
  signed_accepts value what := by
    simp [Operand.signedField_eq_ok positive, signedBits?]
  signed_bits value what bits accepted := by
    rw [Operand.signedField_eq_ok positive, signedBits?_eq_some positive] at accepted
    obtain ⟨rfl, same⟩ := accepted
    refine ⟨BitVec.isLt _, ?_⟩
    rw [Word.signExtend, BitVec.setWidth_ofNat_of_le inside, BitVec.ofNat_toNat, BitVec.setWidth_eq, same]
  unsigned_accepts value what := by
    simp [unsignedBits?]
  unsigned_bits value what bits accepted := by
    rw [Operand.unsignedField_eq_ok, unsignedBits?_eq_some] at accepted
    exact accepted.1
  slice_value word lo fits := Word.signExtend_bits positive fits word
  slice_only word other lo fits same := Word.bits_congr positive same
  machine_signed := Machine.signedField?_ofNat positive inside
  machine_unsigned := Machine.unsignedField?_ofNat inside
  machine_bits word lo fits := Machine.bits?_ofNat positive fits word
  machine_signExtend := Machine.signExtend?_ofNat positive inside

/-- An immediate in the highest twelve bits of a word, and the ends of its range. -/
theorem fieldLaws_of_width_immediate :
    Word.signExtend (BitVec.ofNat 32 (Word.bits 0x80000013#32 31 20)) 12 = -2048 ∧
      (∃ bits, Operand.signedField (-2048) 12 "offset".toList = .ok bits) ∧
      ¬ ∃ bits, Operand.signedField 2048 12 "offset".toList = .ok bits := by
  have laws : FieldLaws 12 := fieldLaws_of_width (by decide) (by decide)
  refine ⟨?_, (laws.signed_accepts _ _).mpr (by decide), fun accepted => ?_⟩
  · exact (laws.slice_value 0x80000013#32 20 (by decide)).trans (by decide)
  · exact absurd ((laws.signed_accepts _ _).mp accepted) (by decide)

end RiscAsm
