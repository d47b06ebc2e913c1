import RiscAsm.LabelTable
import RiscAsm.Proofs.OperandMeaning

namespace RiscAsm

open Text

theorem isAlpha_iff {c : Char} : c.isAlpha ↔ 65 ≤ c.toNat ∧ c.toNat ≤ 90 ∨ 97 ≤ c.toNat ∧ c.toNat ≤ 122 := by
  simp [Char.isAlpha, Char.isUpper, Char.isLower, UInt32.le_iff_toNat_le]

theorem isDigit_iff {c : Char} : c.isDigit ↔ 48 ≤ c.toNat ∧ c.toNat ≤ 57 := by
  simp [Char.isDigit, UInt32.le_iff_toNat_le]

theorem isPlain_of_isAlphanum {c : Char} (letter : c.isAlphanum) : isPlain c := by
  rw [Char.isAlphanum, Bool.or_eq_true, isAlpha_iff, isDigit_iff] at letter
  rw [isPlain_iff]
  refine ⟨?_, by rintro rfl; revert letter; decide, by rintro rfl; revert letter; decide,
    by rintro rfl; revert letter; decide⟩
  simp only [isBlank, Bool.or_eq_true, Bool.and_eq_true, beq_iff_eq, decide_eq_true_eq]
  omega

/-- A name can stand as an operand, and before a colon. -/
theorem plain_of_isIdentifier {s : Text} (identifier : isIdentifier s) : Plain s := by
  cases s with
  | nil => cases identifier
  | cons c rest =>
    simp only [isIdentifier, Bool.and_eq_true, Bool.or_eq_true, beq_iff_eq, List.all_eq_true] at identifier
    obtain ⟨first, others⟩ := identifier
    refine ⟨by simp, ?_⟩
    intro d member
    rcases List.mem_cons.mp member with rfl | later
    · rcases first with (letter | rfl) | rfl
      · exact isPlain_of_isAlphanum (by simp [Char.isAlphanum, letter])
      · decide
      · decide
    · rcases others d later with ((letter | rfl) | rfl) | rfl
      · exact isPlain_of_isAlphanum letter
      all_goals decide

/-- What starts an identifier is neither a sign nor a decimal digit. -/
theorem identifier_start {c : Char} {s : Text} (identifier : isIdentifier (c :: s)) :
    c ≠ '-' ∧ c ≠ '+' ∧ c ≠ '0' ∧ Numeral.step? 10 0 c = none := by
  simp only [isIdentifier, Bool.and_eq_true, Bool.or_eq_true, beq_iff_eq] at identifier
  rcases identifier.1 with (letter | rfl) | rfl
  · rw [isAlpha_iff] at letter
    refine ⟨by rintro rfl; revert letter; decide, by rintro rfl; revert letter; decide,
      by rintro rfl; revert letter; decide, ?_⟩
    have noDigit : ¬ ('0' ≤ c ∧ c ≤ '9') := by
      simp only [Char.le_def, UInt32.le_iff_toNat_le, Char.toNat_val]
      simp
      omega
    have large : ∀ d, Numeral.digit? c = some d → ¬ d < 10 := by
      intro d reads
      unfold Numeral.digit? at reads
      rw [if_neg noDigit] at reads
      split at reads
      · cases reads; omega
      · split at reads
        · cases reads; omega
        · cases reads
    unfold Numeral.step?
    split
    · rename_i d reads
      exact if_neg (large d reads)
    · rfl
  · decide
  · decide

theorem literal?_of_isIdentifier {s : Text} (identifier : isIdentifier s) : Numeral.literal? s = none := by
  have trimmed := (plain_of_isIdentifier identifier).trimmed
  cases s with
  | nil => cases identifier
  | cons c rest =>
    obtain ⟨noMinus, noPlus, noZero, noDigit⟩ := identifier_start identifier
    have unread : Numeral.unsigned? (c :: rest) = none := by
      unfold Numeral.unsigned?
      split
      · simp_all
      · simp_all
      · simp [Numeral.digits?, noDigit]
    unfold Numeral.literal?
    rw [trimmed]
    split
    · simp_all
    · simp_all
    · simp [Numeral.magnitude?, unread]

namespace LabelTable

def Named (t : LabelTable) : Prop := ∀ label ∈ t.labels, isIdentifier label.name

theorem named_empty : ({} : LabelTable).Named := by
  simp [Named]

theorem Named.isIdentifier_of_find? {t : LabelTable} (named : t.Named) {name : Text} {label : Label}
    (found : t.find? name = some label) : isIdentifier name := by
  have same := List.find?_some found
  rw [← beq_iff_eq.mp same]
  exact named label (List.mem_of_find?_eq_some found)

theorem Named.address?_of_literal {t : LabelTable} (named : t.Named) {token : Text} {value : Int}
    (reads : Numeral.literal? token = some value) : t.address? token = none := by
  cases found : t.find? token with
  | none => simp [address?, found]
  | some label =>
    rw [literal?_of_isIdentifier (named.isIdentifier_of_find? found)] at reads
    cases reads

theorem Named.target_hex {t : LabelTable} (named : t.Named) (address : Word) :
    t.target (Numeral.hex address.toNat) = .ok address := by
  have bound := address.isLt
  have reads := Numeral.literal?_hex (n := address.toNat) (by omega)
  have range : (0 : Int) ≤ address.toNat ∧ (address.toNat : Int) ≤ 0xffffffff := by omega
  unfold target
  rw [named.address?_of_literal reads, reads]
  simp only [range, and_self, if_true, BitVec.ofInt_natCast, BitVec.ofNat_toNat, BitVec.setWidth_eq]

end LabelTable

end RiscAsm
