import RiscAsm.Proofs.OperandMeaning

namespace RiscAsm

open Text

/-- A character that neither literals nor registers are written with. -/
structure IsMark (c : Char) : Prop where
  solid : ¬ isBlank c
  noSign : c ≠ '-' ∧ c ≠ '+' ∧ c ≠ '$'
  noLetter : c ≠ 'x' ∧ c ≠ 'X'
  noDigit : Numeral.digit? c = none
  noName : ∀ arch : Arch, ∀ entry ∈ arch.registerNames, c ∉ entry.1

namespace IsMark

variable {c : Char} {s : Text}

/-- A colon ends a label, and parentheses stand around a base register. -/
theorem of_mem (member : c ∈ [':', '(', ')']) : IsMark c := by
  simp only [List.mem_cons, List.not_mem_nil, or_false] at member
  rcases member with rfl | rfl | rfl
  all_goals exact ⟨by decide, by decide, by decide, by decide, fun arch => by cases arch <;> decide⟩

theorem colon : IsMark ':' := of_mem (by decide)

theorem paren : IsMark '(' := of_mem (by decide)

theorem closing : IsMark ')' := of_mem (by decide)

theorem not_mem_of_trim (mark : IsMark c) (absent : c ∉ trim s) : c ∉ s :=
  fun member => absent (mem_trim member mark.solid)

theorem not_mem_of_magnitude? (mark : IsMark c) {n : Nat} (reads : Numeral.magnitude? s = some n) : c ∉ s := by
  have whole := (Option.filter_eq_some_iff.mp reads).1
  have noZero : c ≠ '0' := by
    rintro rfl
    exact absurd mark.noDigit (by decide)
  unfold Numeral.unsigned? at whole
  split at whole
  · simp [Numeral.not_mem_of_digits? mark.noDigit whole, noZero, mark.noLetter]
  · simp [Numeral.not_mem_of_digits? mark.noDigit whole, noZero, mark.noLetter]
  · exact Numeral.not_mem_of_digits? mark.noDigit whole

theorem not_mem_of_literal? (mark : IsMark c) {value : Int} (reads : Numeral.literal? s = some value) : c ∉ s := by
  have magnitude {body : Text} {n : Int} (found : (do let k ← Numeral.magnitude? body; pure (k : Int)) = some n) :
      c ∉ body := by
    obtain ⟨k, ofBody, _⟩ := Option.bind_eq_some_iff.mp found
    exact mark.not_mem_of_magnitude? ofBody
  refine mark.not_mem_of_trim ?_
  unfold Numeral.literal? at reads
  split at reads
  · rename_i body signed
    obtain ⟨n, found, _⟩ := Option.map_eq_some_iff.mp reads
    simp [signed, magnitude found, mark.noSign]
  · rename_i body signed
    obtain ⟨n, found, _⟩ := Option.map_eq_some_iff.mp reads
    simp [signed, magnitude found, mark.noSign]
  · obtain ⟨n, found, _⟩ := Option.map_eq_some_iff.mp reads
    exact magnitude found

theorem not_mem_of_register? (mark : IsMark c) {arch : Arch} {n : Nat} (reads : arch.register? s = some n) : c ∉ s := by
  have ofName (absent : c ∉ arch.dropSigil (trim s)) : c ∉ s := by
    refine mark.not_mem_of_trim ?_
    unfold Arch.dropSigil at absent
    split at absent
    · rename_i whole
      simp [whole, absent, mark.noSign]
    · exact absent
  refine ofName ?_
  unfold Arch.register? at reads
  dsimp only at reads
  split at reads
  · rename_i entry found
    have same : entry.1 = arch.dropSigil (trim s) := by simpa using List.find?_some found
    rw [← same]
    exact mark.noName arch entry (List.mem_of_find?_eq_some found)
  · have absent := Numeral.not_mem_of_digits? mark.noDigit (Option.filter_eq_some_iff.mp reads).1
    unfold Arch.dropNumberMark at absent
    split at absent
    · rename_i whole
      simp [whole, absent, mark.noLetter]
    · exact absent

end IsMark

namespace Operand

/-- A memory operand is an offset before a base register in parentheses, between optional blanks. A blank offset
is zero. -/
def Places (arch : Arch) (token : Text) (offset : Int) (base : Nat) : Prop :=
  ∃ before inside, trim token = before ++ '(' :: inside ++ [')'] ∧ '(' ∉ before ∧
    (Blanks before ∧ offset = 0 ∨ Numeral.literal? before = some offset) ∧ arch.register? inside = some base

theorem literal?_trim (s : Text) : Numeral.literal? (trim s) = Numeral.literal? s := by
  unfold Numeral.literal?
  rw [trimmed_trim s]

theorem memoryParts?_eq_some {token before inside : Text} :
    memoryParts? token = some (before, inside) ↔ trim token = before ++ '(' :: inside ++ [')'] ∧ '(' ∉ before := by
  constructor
  · intro parts
    unfold memoryParts? at parts
    dsimp only at parts
    split at parts
    · rename_i closed
      obtain ⟨c, cut, absent, whole⟩ := cutAt_eq_some parts
      rw [← List.dropLast_append_getLast? _ closed, whole, beq_iff_eq.mp cut]
      exact ⟨rfl, fun member => absent _ member (beq_self_eq_true '(')⟩
    · cases parts
  · rintro ⟨whole, absent⟩
    have trimmed := trimmed_trim token
    rw [whole] at trimmed
    have parts := memoryParts?_of_trimmed trimmed absent
    rwa [← whole, show memoryParts? (trim token) = memoryParts? token by
      unfold memoryParts?; rw [trimmed_trim token]] at parts

/-- The number before the parentheses, which may be left out. -/
def offset (before : Text) : Except Fault Int :=
  if (trim before).isEmpty then .ok 0 else immediate (trim before)

theorem offset_eq_ok_iff {before : Text} {value : Int} :
    offset before = .ok value ↔ Blanks before ∧ value = 0 ∨ Numeral.literal? before = some value := by
  unfold offset
  by_cases empty : trim before = []
  · have unread : Numeral.literal? before = none := by rw [← literal?_trim, empty]; rfl
    simp [empty, trim_eq_nil_iff.mp empty, unread, eq_comm]
  · have solid : ¬ Blanks before := fun blanks => empty (trim_eq_nil_iff.mpr blanks)
    simp [empty, solid, literal?_trim]

theorem memory_of_parts {token before inside : Text} (parts : memoryParts? token = some (before, inside))
    (arch : Arch) : memory arch token = (do
      let value ← offset before
      let number ← register arch inside
      return (value, number)) := by
  unfold memory offset
  rw [parts]
  dsimp only
  split <;> rfl

theorem memory_eq_ok_iff {arch : Arch} {token : Text} {offset : Int} {base : Nat} :
    memory arch token = .ok (offset, base) ↔ Places arch token offset base := by
  constructor
  · intro read
    cases parts : memoryParts? token with
    | none => simp [memory, parts] at read
    | some cut =>
      obtain ⟨before, inside⟩ := cut
      simp only [memory_of_parts parts, bind_eq_ok, pure_eq_ok, register_eq_ok, Prod.mk.injEq] at read
      obtain ⟨value, ofBefore, number, ofInside, rfl, rfl⟩ := read
      obtain ⟨whole, absent⟩ := memoryParts?_eq_some.mp parts
      exact ⟨before, inside, whole, absent, offset_eq_ok_iff.mp ofBefore, ofInside⟩
  · rintro ⟨before, inside, whole, absent, ofBefore, ofInside⟩
    simp only [memory_of_parts (memoryParts?_eq_some.mpr ⟨whole, absent⟩), bind_eq_ok, pure_eq_ok, register_eq_ok]
    exact ⟨offset, offset_eq_ok_iff.mpr ofBefore, base, ofInside, rfl⟩

theorem Places.lt {arch : Arch} {token : Text} {offset : Int} {base : Nat}
    (placed : Places arch token offset base) : base < 32 := by
  obtain ⟨_, _, _, _, _, ofInside⟩ := placed
  exact Arch.register?_lt ofInside

/-- A memory operand is written without other marks than its two parentheses. -/
theorem Places.count_mark {arch : Arch} {token : Text} {offset : Int} {base : Nat} {c : Char}
    (placed : Places arch token offset base) (mark : IsMark c) : token.count c = ['(', ')'].count c := by
  obtain ⟨before, inside, whole, _, ofBefore, ofInside⟩ := placed
  have notBefore : c ∉ before := by
    rcases ofBefore with ⟨blanks, _⟩ | reads
    · exact not_mem_of_blanks blanks mark.solid
    · exact mark.not_mem_of_literal? reads
  have notInside : c ∉ inside := mark.not_mem_of_register? ofInside
  rw [← count_trim mark.solid, whole]
  simp [List.count_cons, List.count_eq_zero_of_not_mem notBefore, List.count_eq_zero_of_not_mem notInside, Nat.add_comm]

/-- A memory operand is told from a register by its parenthesis. -/
theorem isMemory_of_places {arch : Arch} {token : Text} {offset : Int} {base : Nat}
    (placed : Places arch token offset base) : isMemory token := by
  obtain ⟨before, inside, whole, _⟩ := placed
  have inTrimmed : '(' ∈ trim token := by simp [whole]
  simpa [isMemory] using trim_subset inTrimmed

theorem isMemory_of_register? {arch : Arch} {token : Text} {number : Nat} (reads : arch.register? token = some number) :
    isMemory token = false := by
  simpa [isMemory] using IsMark.paren.not_mem_of_register? reads

end Operand

end RiscAsm
