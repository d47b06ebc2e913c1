import RiscAsm.Proofs.PrintedNumerals

namespace RiscAsm

namespace Numeral

open Text

/-- A character is a hexadecimal digit of the given value, in lower or in upper case. -/
def IsDigitOf (c : Char) (d : Nat) : Prop := d < 16 ∧ (c = Nat.digitChar d ∨ c = (Nat.digitChar d).toUpper)

/-- The hexadecimal digits of a number, with any number of zeros in front. -/
def Spells (token : Text) (n : Nat) : Prop :=
  token ≠ [] ∧ ∃ ds, List.Forall₂ IsDigitOf token ds ∧ Nat.ofDigits 16 ds.reverse = n

variable {c : Char} {d n : Nat} {ds : List Nat} {token : Text}

theorem IsDigitOf.digit? (digit : IsDigitOf c d) : digit? c = some d := by
  have all : ∀ d < 16, Numeral.digit? (Nat.digitChar d) = some d ∧
      Numeral.digit? (Nat.digitChar d).toUpper = some d := by decide
  obtain ⟨small, rfl | rfl⟩ := digit
  · exact (all d small).1
  · exact (all d small).2

/-- A digit is a plain character, and neither a sign nor the end of a vector. -/
theorem IsDigitOf.isPlain (digit : IsDigitOf c d) : isPlain c ∧ c ≠ '+' ∧ c ≠ ';' := by
  have lower : ∀ d < 16, Text.isPlain (Nat.digitChar d) ∧ Nat.digitChar d ≠ '+' ∧ Nat.digitChar d ≠ ';' := by decide
  have upper : ∀ d < 16, Text.isPlain (Nat.digitChar d).toUpper ∧ (Nat.digitChar d).toUpper ≠ '+' ∧
      (Nat.digitChar d).toUpper ≠ ';' := by decide
  obtain ⟨small, rfl | rfl⟩ := digit
  · exact lower d small
  · exact upper d small

theorem isPlain_of_digits (digits : List.Forall₂ IsDigitOf token ds) :
    ∀ c ∈ token, isPlain c ∧ c ≠ '+' ∧ c ≠ ';' := by
  induction digits with
  | nil => nofun
  | cons first _ ih => exact List.forall_mem_cons.mpr ⟨first.isPlain, ih⟩

namespace Spells

theorem plain (spells : Spells token n) : Plain token := by
  obtain ⟨nonempty, ds, digits, _⟩ := spells
  exact ⟨nonempty, fun c member => (isPlain_of_digits digits c member).1⟩

theorem no_semicolon (spells : Spells token n) : ';' ∉ token := by
  obtain ⟨_, ds, digits, _⟩ := spells
  exact fun member => (isPlain_of_digits digits ';' member).2.2 rfl

theorem no_plus (spells : Spells token n) : '+' ∉ token := by
  obtain ⟨_, ds, digits, _⟩ := spells
  exact fun member => (isPlain_of_digits digits '+' member).2.1 rfl

theorem digit (small : d < 16) : Spells [Nat.digitChar d] d :=
  ⟨List.cons_ne_nil _ _, [d], .cons ⟨small, Or.inl rfl⟩ .nil, by simp⟩

theorem append_digit (spells : Spells token n) (small : d < 16) :
    Spells (token ++ [Nat.digitChar d]) (16 * n + d) := by
  obtain ⟨_, ds, digits, rfl⟩ := spells
  refine ⟨by simp, ds ++ [d], List.rel_append digits (.cons ⟨small, Or.inl rfl⟩ .nil), ?_⟩
  rw [List.reverse_append, List.reverse_singleton, List.singleton_append, Nat.ofDigits_cons, Nat.add_comm]

theorem zero_cons (spells : Spells token n) : Spells ('0' :: token) n := by
  obtain ⟨_, ds, digits, rfl⟩ := spells
  exact ⟨List.cons_ne_nil _ _, 0 :: ds, .cons ⟨by decide, Or.inl rfl⟩ digits, by simp [Nat.ofDigits_append]⟩

/-- The last digit of a printed number is its remainder, and the others are those of the quotient. -/
theorem toDigits (n : Nat) : Spells (Nat.toDigits 16 n) n := by
  induction n using Nat.strong_induction_on with
  | _ n ih =>
    rw [Nat.toDigits_eq_if (by decide)]
    split
    · rename_i single
      exact digit single
    · have shorter := (ih (n / 16) (by omega)).append_digit (Nat.mod_lt n (by decide : 0 < 16))
      rwa [Nat.div_add_mod] at shorter

theorem hex8 (n : Nat) : Spells (hex8 n) n := by
  rw [Numeral.hex8, List.leftpad]
  induction 8 - (Nat.toDigits 16 n).length with
  | zero => exact toDigits n
  | succ count ih => exact ih.zero_cons

end Spells

end Numeral

end RiscAsm
