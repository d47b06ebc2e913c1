import RiscAsm.Proofs.SpelledNumerals
import RiscAsm.Word

namespace RiscAsm

namespace Numeral

open Text

/-- The digits of a number in a base of at most sixteen, with any number of zeros in front. -/
def SpellsIn (base : Nat) (token : Text) (n : Nat) : Prop :=
  token ≠ [] ∧ ∃ ds, List.Forall₂ IsDigitOf token ds ∧ (∀ d ∈ ds, d < base) ∧ Nat.ofDigits base ds.reverse = n

/-- An unsigned number: decimal digits, or hexadecimal ones after their mark. -/
inductive Magnitude : Text → Nat → Prop
  | decimal {digits : Text} {n : Nat} (spells : SpellsIn 10 digits n) : Magnitude digits n
  | hexadecimal {mark : Char} {digits : Text} {n : Nat} (marked : mark = 'x' ∨ mark = 'X')
      (spells : SpellsIn 16 digits n) : Magnitude ('0' :: mark :: digits) n

/-- A literal: at most one sign, and a magnitude of at most 63 bits. -/
inductive Denotes : Text → Int → Prop
  | bare {body : Text} {n : Nat} (magnitude : Magnitude body n) (fits : n ≤ 2 ^ 63 - 1) : Denotes body n
  | plus {body : Text} {n : Nat} (magnitude : Magnitude body n) (fits : n ≤ 2 ^ 63 - 1) : Denotes ('+' :: body) n
  | minus {body : Text} {n : Nat} (magnitude : Magnitude body n) (fits : n ≤ 2 ^ 63 - 1) : Denotes ('-' :: body) (-n)

variable {c : Char} {s token : Text} {base value n d : Nat} {v : Int}

/-- A character of a run is known by how far it stands from the first one. -/
theorem eq_ofNat_of_run {first last : Char} (run : first ≤ c ∧ c ≤ last) :
    ∃ k ≤ last.toNat - first.toNat, c.toNat - first.toNat = k ∧ c = Char.ofNat (first.toNat + k) := by
  have low : first.toNat ≤ c.toNat := run.1
  have high : c.toNat ≤ last.toNat := run.2
  exact ⟨c.toNat - first.toNat, by omega, rfl, by rw [Nat.add_sub_cancel' low, Char.ofNat_toNat]⟩

/-- The three runs of digits are the decimal digits and the letters that stand for ten to fifteen, in either case. -/
theorem digit?_eq_some_iff : digit? c = some d ↔ IsDigitOf c d := by
  refine ⟨fun found => ?_, IsDigitOf.digit?⟩
  unfold digit? at found
  split at found
  · rename_i run
    obtain ⟨k, small, value, same⟩ := eq_ofNat_of_run run
    have digits : ∀ k ≤ 9, k < 16 ∧ Char.ofNat (48 + k) = Nat.digitChar k := by decide
    rw [value] at found
    cases found
    exact (digits _ small).imp id fun digit => Or.inl (same.trans digit)
  · split at found
    · rename_i run
      obtain ⟨k, small, value, same⟩ := eq_ofNat_of_run run
      have letters : ∀ k ≤ 5, k + 10 < 16 ∧ Char.ofNat (97 + k) = Nat.digitChar (k + 10) := by decide
      rw [value] at found
      cases found
      exact (letters k small).imp id fun letter => Or.inl (same.trans letter)
    · split at found
      · rename_i run
        obtain ⟨k, small, value, same⟩ := eq_ofNat_of_run run
        have capitals : ∀ k ≤ 5, k + 10 < 16 ∧ Char.ofNat (65 + k) = (Nat.digitChar (k + 10)).toUpper := by decide
        rw [value] at found
        cases found
        exact (capitals k small).imp id fun capital => Or.inr (same.trans capital)
      · cases found

theorem step?_eq_some_iff : step? base value c = some n ↔ ∃ d, IsDigitOf c d ∧ d < base ∧ d + base * value = n := by
  unfold step?
  cases found : digit? c with
  | none =>
    have noDigit : ∀ d, ¬ IsDigitOf c d := fun d digit => by simp [digit.digit?] at found
    simp [noDigit]
  | some e =>
    have same : ∀ d, IsDigitOf c d ↔ e = d := fun d => by rw [← digit?_eq_some_iff, found, Option.some.injEq]
    simp [same, Nat.add_comm]

theorem foldlM_eq_some_iff : token.foldlM (step? base) value = some n ↔
    ∃ ds, List.Forall₂ IsDigitOf token ds ∧ (∀ d ∈ ds, d < base) ∧
      ds.foldl (fun value d => d + base * value) value = n := by
  induction token generalizing value with
  | nil => simp [eq_comm]
  | cons c token ih =>
    simp only [List.foldlM_cons, Option.bind_eq_bind, Option.bind_eq_some_iff, step?_eq_some_iff, ih]
    constructor
    · rintro ⟨_, ⟨d, first, below, rfl⟩, ds, digits, others, whole⟩
      exact ⟨d :: ds, .cons first digits, List.forall_mem_cons.mpr ⟨below, others⟩, whole⟩
    · rintro ⟨_, digits, below, whole⟩
      cases digits with
      | @cons _ d _ ds first rest =>
        obtain ⟨head, tail⟩ := List.forall_mem_cons.mp below
        exact ⟨_, ⟨d, first, head, rfl⟩, ds, rest, tail, whole⟩

/-- Digits are accumulated to the number that they spell, however many there are. -/
theorem digits?_eq_some_iff : digits? base token = some n ↔ SpellsIn base token n := by
  by_cases empty : token = []
  · subst empty
    exact iff_of_false nofun fun spells => spells.1 rfl
  · rw [digits?_eq_foldlM empty, foldlM_eq_some_iff, SpellsIn, and_iff_right empty]
    simp only [Nat.ofDigits_eq_foldr, List.foldr_reverse, Nat.cast_id]

/-- A hexadecimal digit is below sixteen as it is. -/
theorem spells_iff_spellsIn : Spells token n ↔ SpellsIn 16 token n := by
  refine and_congr_right fun _ => exists_congr fun ds => and_congr_right fun digits => ?_
  have below : ∀ d ∈ ds, d < 16 := by
    clear * - digits
    induction digits with
    | nil => nofun
    | cons first _ ih => exact List.forall_mem_cons.mpr ⟨first.1, ih⟩
  exact (and_iff_right below).symm

theorem Spells.unique {m : Nat} (first : Spells token n) (second : Spells token m) : n = m := by
  rw [spells_iff_spellsIn, ← digits?_eq_some_iff] at first second
  exact Option.some.inj (first.symm.trans second)

/-- A word is read from digits whose value it can hold, and from these after a plus sign. -/
theorem word?_eq_some_iff : word? 16 token = some n ↔
    (∃ digits, (token = digits ∨ token = '+' :: digits) ∧ Spells digits n) ∧ n < 2 ^ 32 := by
  have body : ∀ digits, (digits? 16 digits).filter (· ≤ 0xffffffff) = some n ↔ Spells digits n ∧ n < 2 ^ 32 := by
    intro digits
    rw [Option.filter_eq_some_iff, digits?_eq_some_iff, spells_iff_spellsIn, decide_eq_true_eq]
    norm_num [Nat.lt_succ_iff]
  unfold word?
  rw [body]
  refine and_congr_left fun _ => ?_
  split
  · rename_i digits
    constructor
    · exact fun spells => ⟨digits, Or.inr rfl, spells⟩
    · rintro ⟨_, rfl | same, spells⟩
      · exact absurd List.mem_cons_self spells.no_plus
      · rwa [(List.cons.inj same).2]
  · rename_i noSign
    constructor
    · exact fun spells => ⟨token, Or.inl rfl, spells⟩
    · rintro ⟨digits, rfl | rfl, spells⟩
      · exact spells
      · exact absurd rfl (noSign digits)

/-- A decimal digit is neither the mark of hexadecimal digits nor a sign. -/
theorem SpellsIn.no_mark (spells : SpellsIn 10 token n) :
    ∀ c ∈ token, c ≠ 'x' ∧ c ≠ 'X' ∧ c ≠ '-' ∧ c ≠ '+' := by
  intro c member
  have other {mark : Char} (noDigit : digit? mark = none) : c ≠ mark := by
    rintro rfl
    exact not_mem_of_digits? noDigit (digits?_eq_some_iff.mpr spells) member
  exact ⟨other (by decide), other (by decide), other (by decide), other (by decide)⟩

theorem unsigned?_eq_some_iff : unsigned? s = some n ↔ Magnitude s n := by
  constructor
  · intro reads
    unfold unsigned? at reads
    split at reads
    · exact .hexadecimal (Or.inl rfl) (digits?_eq_some_iff.mp reads)
    · exact .hexadecimal (Or.inr rfl) (digits?_eq_some_iff.mp reads)
    · exact .decimal (digits?_eq_some_iff.mp reads)
  · rintro (spells | ⟨rfl | rfl, spells⟩)
    · have noMark : ∀ c ∈ s, c ≠ 'x' ∧ c ≠ 'X' := fun c member =>
        ⟨(spells.no_mark c member).1, (spells.no_mark c member).2.1⟩
      rw [unsigned?_of_no_mark noMark, digits?_eq_some_iff]
      exact spells
    · exact digits?_eq_some_iff.mpr spells
    · exact digits?_eq_some_iff.mpr spells

theorem magnitude?_eq_some_iff : magnitude? s = some n ↔ Magnitude s n ∧ n ≤ 2 ^ 63 - 1 := by
  simp only [magnitude?, Option.filter_eq_some_iff, unsigned?_eq_some_iff, decide_eq_true_eq]
  norm_num

/-- A magnitude starts with a digit and so never with a sign, of which a literal has no second one. -/
theorem Magnitude.head_ne_sign (magnitude : Magnitude s n) : ∀ c ∈ s.head?, c ≠ '-' ∧ c ≠ '+' := by
  intro c first
  cases magnitude with
  | decimal spells => exact (spells.no_mark c (List.mem_of_mem_head? first)).2.2
  | hexadecimal marked spells =>
    cases first
    decide

theorem map_magnitude?_eq_some_iff {f : Int → Int} :
    Option.map f (do let n ← magnitude? s; pure (n : Int)) = some v ↔
      ∃ n, Magnitude s n ∧ n ≤ 2 ^ 63 - 1 ∧ f n = v := by
  cases found : magnitude? s with
  | none =>
    have outside : ∀ n, Magnitude s n → ¬ n ≤ 2 ^ 63 - 1 := fun n magnitude fits => by
      simp [magnitude?_eq_some_iff.mpr ⟨magnitude, fits⟩] at found
    simpa using fun n magnitude fits => absurd fits (outside n magnitude)
  | some m =>
    have same : ∀ n, Magnitude s n ∧ n ≤ 2 ^ 63 - 1 ↔ m = n := fun n => by
      rw [← magnitude?_eq_some_iff, found, Option.some.injEq]
    rw [show Option.map f (do let n ← some m; pure (n : Int)) = some (f m) from rfl, Option.some.injEq]
    simp only [← and_assoc, same, exists_eq_left']

/-- A literal is read exactly if it is one, and with the value that it denotes. -/
theorem literal?_eq_some_iff : literal? s = some v ↔ Denotes (trim s) v := by
  unfold literal?
  generalize trim s = t
  constructor
  · intro reads
    split at reads
    · obtain ⟨n, magnitude, fits, rfl⟩ := map_magnitude?_eq_some_iff.mp reads
      exact .minus magnitude fits
    · obtain ⟨n, magnitude, fits, rfl⟩ := map_magnitude?_eq_some_iff.mp reads
      exact .plus magnitude fits
    · obtain ⟨n, magnitude, fits, rfl⟩ := map_magnitude?_eq_some_iff.mp reads
      exact .bare magnitude fits
  · intro denotes
    cases denotes with
    | @bare body n magnitude fits =>
      have noSign := magnitude.head_ne_sign
      split
      · exact absurd rfl (noSign '-' rfl).1
      · exact absurd rfl (noSign '+' rfl).2
      · exact map_magnitude?_eq_some_iff.mpr ⟨n, magnitude, fits, rfl⟩
    | plus magnitude fits | minus magnitude fits =>
      exact map_magnitude?_eq_some_iff.mpr ⟨_, magnitude, fits, rfl⟩

theorem Denotes.range (denotes : Denotes s v) : -2 ^ 63 < v ∧ v < 2 ^ 63 := by
  cases denotes <;> omega

/-- Literals are read exactly: at most one sign, then digits, decimal or hexadecimal after `0x` or `0X`, between
optional blanks and with a magnitude that 63 bits can hold. So the least number of 64 bits is never read. Every other
one is read back from its decimal text, and every word from its hexadecimal text. -/
theorem reads_literals_exactly :
    (∀ s v, literal? s = some v ↔ Denotes (trim s) v) ∧
    (∀ s v, literal? s = some v → -2 ^ 63 < v ∧ v < 2 ^ 63) ∧
    (∀ v : Int, -2 ^ 63 < v → v < 2 ^ 63 → literal? (signed v) = some v) ∧
    ∀ word : Word, literal? (hex word.toNat) = some (word.toNat : Int) := by
  refine ⟨fun s v => literal?_eq_some_iff, fun s v reads => (literal?_eq_some_iff.mp reads).range, ?_, ?_⟩
  · intro v lower upper
    exact literal?_signed v (by omega) (by omega)
  · intro word
    have bound := word.isLt
    exact literal?_hex (by omega)

/-- A sign and zeros in front do not count towards the magnitude, of which the greatest is read and its successor
is not. -/
theorem reads_literals_exactly_greatest :
    Denotes (trim " -0X007fffFFFFffffFFFF\t".toList) (-0x7fffffffffffffff) ∧
      ¬ Denotes (trim "-0x8000000000000000".toList) (-0x8000000000000000) ∧
      literal? (signed (-0x7fffffffffffffff)) = some (-0x7fffffffffffffff) := by
  obtain ⟨grammar, range, printed, _⟩ := reads_literals_exactly
  refine ⟨(grammar _ _).mp (by decide +kernel), fun denotes => ?_, printed _ (by decide) (by decide)⟩
  have above := (range _ _ ((grammar _ _).mpr denotes)).1
  exact absurd above (by decide)

end Numeral

end RiscAsm
