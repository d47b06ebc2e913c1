import RiscAsm.Numeral
import RiscAsm.Proofs.TrimmedText

namespace RiscAsm

namespace Text

/-- A plain character is neither a blank nor a mark that divides lines or operands. -/
def isPlain (c : Char) : Bool := !(isBlank c || c == ',' || c == '#' || c == ':')

/-- A plain text can stand as an operand wherever the assembler writes one. -/
def Plain (s : Text) : Prop := s ≠ [] ∧ ∀ c ∈ s, isPlain c

instance : DecidablePred Plain := fun s => decidable_of_iff ((!s.isEmpty && s.all isPlain) = true) (by simp [Plain])

theorem isPlain_iff {c : Char} : isPlain c ↔ ¬ isBlank c ∧ c ≠ ',' ∧ c ≠ '#' ∧ c ≠ ':' := by
  simp [isPlain, and_assoc]

theorem Plain.trimmed {s : Text} (plain : Plain s) : Trimmed s :=
  trimmed_of_no_blank fun c member => (isPlain_iff.mp (plain.2 c member)).1

theorem Plain.append {a b : Text} (left : Plain a) (right : ∀ c ∈ b, isPlain c) : Plain (a ++ b) := by
  refine ⟨by simp [left.1], ?_⟩
  intro c member
  rcases List.mem_append.mp member with inLeft | inRight
  · exact left.2 c inLeft
  · exact right c inRight

theorem Plain.cons {c : Char} {s : Text} (head : isPlain c) (plain : Plain s) : Plain (c :: s) :=
  ⟨by simp, List.forall_mem_cons.mpr ⟨head, plain.2⟩⟩

end Text

namespace Numeral

open Text

theorem digit?_digitChar {d : Nat} (small : d < 16) : digit? (Nat.digitChar d) = some d := by
  have all : ∀ d < 16, digit? (Nat.digitChar d) = some d := by decide
  exact all d small

theorem step?_digitChar {base d : Nat} (bound : base ≤ 16) (small : d < base) (value : Nat) :
    step? base value (Nat.digitChar d) = some (base * value + d) := by
  simp [step?, digit?_digitChar (small.trans_le bound), small]

/-- Printed digits read back as the number they were printed from. -/
theorem foldlM_toDigits {base : Nat} (atLeast : 1 < base) (bound : base ≤ 16) (n : Nat) :
    (Nat.toDigits base n).foldlM (step? base) 0 = some n := by
  -- All digits but the last are those of the quotient by the base.
  induction n using Nat.strong_induction_on with
  | _ n ih =>
    rw [Nat.toDigits_eq_if atLeast]
    split
    · rename_i single
      simp [step?_digitChar bound single]
    · rename_i several
      have smaller : n / base < n := Nat.div_lt_self (by omega) atLeast
      have last : n % base < base := Nat.mod_lt n (by omega)
      have whole := Nat.div_add_mod n base
      simp [List.foldlM_append, ih _ smaller, step?_digitChar bound last, whole]

theorem mem_toDigits {base : Nat} (atLeast : 1 < base) {n : Nat} {c : Char} (member : c ∈ Nat.toDigits base n) :
    ∃ d < base, c = Nat.digitChar d := by
  induction n using Nat.strong_induction_on with
  | _ n ih =>
    rw [Nat.toDigits_eq_if atLeast] at member
    split at member
    · rename_i single
      exact ⟨n, single, List.mem_singleton.mp member⟩
    · rename_i several
      rcases List.mem_append.mp member with earlier | last
      · exact ih _ (Nat.div_lt_self (by omega) atLeast) earlier
      · exact ⟨n % base, Nat.mod_lt n (by omega), List.mem_singleton.mp last⟩

theorem toDigits_ne_nil {base : Nat} (atLeast : 1 < base) (n : Nat) : Nat.toDigits base n ≠ [] := by
  rw [Nat.toDigits_eq_if atLeast]
  split <;> simp

theorem digits?_eq_foldlM {base : Nat} {s : Text} (nonempty : s ≠ []) : digits? base s = s.foldlM (step? base) 0 := by
  cases s with
  | nil => exact absurd rfl nonempty
  | cons => rfl

theorem not_mem_of_foldlM {base start n : Nat} {s : Text} {c : Char} (noDigit : digit? c = none)
    (reads : s.foldlM (step? base) start = some n) : c ∉ s := by
  induction s generalizing start with
  | nil => simp
  | cons d rest ih =>
    rw [List.foldlM_cons] at reads
    obtain ⟨value, first, later⟩ := Option.bind_eq_some_iff.mp reads
    have other : c ≠ d := by
      rintro rfl
      simp [step?, noDigit] at first
    simp [other, ih later]

theorem not_mem_of_digits? {base n : Nat} {s : Text} {c : Char} (noDigit : digit? c = none)
    (reads : digits? base s = some n) : c ∉ s := by
  cases s with
  | nil => simp
  | cons d rest => exact not_mem_of_foldlM noDigit reads

theorem digits?_toDigits {base : Nat} (atLeast : 1 < base) (bound : base ≤ 16) (n : Nat) :
    digits? base (Nat.toDigits base n) = some n := by
  rw [digits?_eq_foldlM (toDigits_ne_nil atLeast n), foldlM_toDigits atLeast bound]

theorem isPlain_digitChar {d : Nat} (small : d < 16) : isPlain (Nat.digitChar d) := by
  have all : ∀ d < 16, isPlain (Nat.digitChar d) := by decide
  exact all d small

theorem plain_toDigits {base : Nat} (atLeast : 1 < base) (bound : base ≤ 16) (n : Nat) :
    Plain (Nat.toDigits base n) := by
  refine ⟨toDigits_ne_nil atLeast n, ?_⟩
  intro c member
  obtain ⟨d, small, rfl⟩ := mem_toDigits atLeast member
  exact isPlain_digitChar (small.trans_le bound)

theorem plain_decimal (n : Nat) : Plain (decimal n) := plain_toDigits (by decide) (by decide) n

theorem plain_hex (n : Nat) : Plain (hex n) :=
  .cons (by decide) (.cons (by decide) (plain_toDigits (by decide) (by decide) n))

theorem plain_signed (value : Int) : Plain (signed value) := by
  cases value with
  | ofNat n => exact plain_decimal n
  | negSucc n => exact .cons (by decide) (plain_decimal (n + 1))

/-- Decimal digits are no letters, so a printed decimal number has no hexadecimal mark. -/
theorem digitChar_ne_of_lt_ten {d : Nat} (small : d < 10) :
    Nat.digitChar d ≠ 'x' ∧ Nat.digitChar d ≠ 'X' ∧ Nat.digitChar d ≠ '-' ∧ Nat.digitChar d ≠ '+' := by
  have all : ∀ d < 10, Nat.digitChar d ≠ 'x' ∧ Nat.digitChar d ≠ 'X' ∧ Nat.digitChar d ≠ '-' ∧
      Nat.digitChar d ≠ '+' := by decide
  exact all d small

theorem unsigned?_of_no_mark {s : Text} (absent : ∀ c ∈ s, c ≠ 'x' ∧ c ≠ 'X') : unsigned? s = digits? 10 s := by
  unfold unsigned?
  split
  · simp at absent
  · simp at absent
  · rfl

theorem unsigned?_decimal (n : Nat) : unsigned? (decimal n) = some n := by
  rw [unsigned?_of_no_mark, decimal, digits?_toDigits (by decide) (by decide)]
  intro c member
  obtain ⟨d, small, rfl⟩ := mem_toDigits (by decide) member
  have other := digitChar_ne_of_lt_ten small
  exact ⟨other.1, other.2.1⟩

theorem unsigned?_hex (n : Nat) : unsigned? (hex n) = some n := digits?_toDigits (by decide) (by decide) n

theorem literal?_of_unsigned {s : Text} {n : Nat} (trimmed : Trimmed s) (noSign : ∀ c ∈ s.head?, c ≠ '-' ∧ c ≠ '+')
    (reads : unsigned? s = some n) (bound : n ≤ 0x7fffffffffffffff) : literal? s = some (n : Int) := by
  unfold literal?
  rw [trimmed]
  split
  · simp at noSign
  · simp at noSign
  · simp [magnitude?, reads, Option.filter, bound]

theorem literal?_of_minus {s : Text} {n : Nat} (trimmed : Trimmed ('-' :: s)) (reads : unsigned? s = some n)
    (bound : n ≤ 0x7fffffffffffffff) : literal? ('-' :: s) = some (-(n : Int)) := by
  unfold literal?
  rw [trimmed]
  simp [magnitude?, reads, Option.filter, bound]

theorem literal?_decimal {n : Nat} (bound : n ≤ 0x7fffffffffffffff) : literal? (decimal n) = some (n : Int) := by
  refine literal?_of_unsigned (plain_decimal n).trimmed ?_ (unsigned?_decimal n) bound
  intro c first
  obtain ⟨d, small, rfl⟩ := mem_toDigits (by decide) (List.mem_of_mem_head? first)
  exact (digitChar_ne_of_lt_ten small).2.2

theorem literal?_hex {n : Nat} (bound : n ≤ 0x7fffffffffffffff) : literal? (hex n) = some (n : Int) := by
  refine literal?_of_unsigned (plain_hex n).trimmed ?_ (unsigned?_hex n) bound
  intro c first
  cases Option.mem_some_iff.mp first
  decide

/-- Signed numbers read back unless their magnitude has more than 63 bits. -/
theorem literal?_signed (value : Int) (lower : -0x7fffffffffffffff ≤ value) (upper : value ≤ 0x7fffffffffffffff) :
    literal? (signed value) = some value := by
  cases value with
  | ofNat n => exact literal?_decimal (Int.ofNat_le.mp upper)
  | negSucc n =>
    have bound : n + 1 ≤ 0x7fffffffffffffff := by omega
    have trimmed := (plain_signed (Int.negSucc n)).trimmed
    exact literal?_of_minus trimmed (unsigned?_decimal (n + 1)) bound

theorem foldlM_replicate_zero {base : Nat} (atLeast : 1 < base) (count : Nat) (s : Text) :
    (List.replicate count '0' ++ s).foldlM (step? base) 0 = s.foldlM (step? base) 0 := by
  induction count with
  | zero => rfl
  | succ count ih =>
    have zero : step? base 0 '0' = some 0 := by simp [step?, show digit? '0' = some 0 from by decide]; omega
    simp only [List.replicate_succ, List.cons_append, List.foldlM_cons, zero]
    exact ih

theorem mem_hex8 {n : Nat} {c : Char} (member : c ∈ hex8 n) : ∃ d < 16, c = Nat.digitChar d := by
  rcases List.mem_append.mp member with fill | digit
  · exact ⟨0, by decide, List.eq_of_mem_replicate fill⟩
  · exact mem_toDigits (by decide) digit

theorem plain_hex8 (n : Nat) : Plain (hex8 n) := by
  have digits : Plain (Nat.toDigits 16 n) := plain_toDigits (by decide) (by decide) n
  refine ⟨by simp [hex8, List.leftpad, digits.1], ?_⟩
  intro c member
  obtain ⟨d, small, rfl⟩ := mem_hex8 member
  exact isPlain_digitChar small

theorem not_mem_hex8 {c : Char} (noDigit : ∀ d < 16, c ≠ Nat.digitChar d) (n : Nat) : c ∉ hex8 n := by
  intro member
  obtain ⟨d, small, same⟩ := mem_hex8 member
  exact noDigit d small same

/-- The first character of a printed word is a digit and never a plus sign. -/
theorem word?_hex8 {n : Nat} (bound : n ≤ 0xffffffff) : word? 16 (hex8 n) = some n := by
  have reads : digits? 16 (hex8 n) = some n := by
    rw [digits?_eq_foldlM (plain_hex8 n).1, hex8, List.leftpad, foldlM_replicate_zero (by decide),
      foldlM_toDigits (by decide) (by decide)]
  have noPlus : '+' ∉ hex8 n := not_mem_hex8 (by decide) n
  unfold word?
  split
  · rename_i body same
    rw [same] at noPlus
    simp at noPlus
  · simp [reads, Option.filter, bound]

end Numeral

end RiscAsm
