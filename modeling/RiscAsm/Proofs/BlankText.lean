import RiscAsm.Proofs.TrimmedText

namespace RiscAsm.Text

def Blanks (s : Text) : Prop := ∀ c ∈ s, isBlank c

variable {blanks s : Text}

theorem not_mem_of_blanks (areBlanks : Blanks blanks) {c : Char} (solid : ¬ isBlank c) : c ∉ blanks :=
  fun member => solid (areBlanks c member)

theorem trim_blanks_append (areBlanks : Blanks blanks) (s : Text) : trim (blanks ++ s) = trim s := by
  unfold trim trimStart
  rw [List.dropWhile_append_of_pos areBlanks]

theorem trim_append_blank {c : Char} (blank : isBlank c) (s : Text) : trim (s ++ [c]) = trim s := by
  unfold trim trimStart
  rw [List.dropWhile_append]
  cases left : List.dropWhile isBlank s with
  | nil => simp [blank]
  | cons d rest =>
    simp only [List.isEmpty_cons, Bool.false_eq_true, if_false, trimEnd_eq_rdropWhile]
    exact List.rdropWhile_concat_pos _ _ _ blank

theorem trim_append_blanks (areBlanks : Blanks blanks) (s : Text) : trim (s ++ blanks) = trim s := by
  induction blanks generalizing s with
  | nil => rw [List.append_nil]
  | cons c blanks ih =>
    obtain ⟨blank, others⟩ := List.forall_mem_cons.mp areBlanks
    rw [List.append_cons, ih others, trim_append_blank blank]

theorem exists_blanks_trimStart (s : Text) : ∃ blanks, Blanks blanks ∧ s = blanks ++ trimStart s :=
  ⟨s.takeWhile isBlank, fun _ => List.mem_takeWhile_imp, (List.takeWhile_append_dropWhile).symm⟩

theorem exists_trimEnd_blanks (s : Text) : ∃ blanks, Blanks blanks ∧ s = trimEnd s ++ blanks := by
  refine ⟨(s.reverse.takeWhile isBlank).reverse, fun c member => ?_, ?_⟩
  · exact List.mem_takeWhile_imp (List.mem_reverse.mp member)
  · rw [trimEnd, ← List.reverse_append, List.takeWhile_append_dropWhile, List.reverse_reverse]

/-- A text is what trimming leaves of it between blanks. -/
theorem exists_blanks_trim (s : Text) :
    ∃ before after, Blanks before ∧ Blanks after ∧ s = before ++ trim s ++ after := by
  obtain ⟨before, atStart, start⟩ := exists_blanks_trimStart s
  obtain ⟨after, atEnd, rest⟩ := exists_trimEnd_blanks (trimStart s)
  refine ⟨before, after, atStart, atEnd, ?_⟩
  rw [List.append_assoc]
  exact start.trans (congrArg _ rest)

theorem trim_trimStart (s : Text) : trim (trimStart s) = trim s := by
  obtain ⟨blanks, areBlanks, whole⟩ := exists_blanks_trimStart s
  conv_rhs => rw [whole, trim_blanks_append areBlanks]

theorem trim_trimEnd (s : Text) : trim (trimEnd s) = trim s := by
  obtain ⟨blanks, areBlanks, whole⟩ := exists_trimEnd_blanks s
  conv_rhs => rw [whole, trim_append_blanks areBlanks]

/-- Trimming takes away blanks only. -/
theorem mem_trim {c : Char} (member : c ∈ s) (solid : ¬ isBlank c) : c ∈ trim s := by
  obtain ⟨before, after, atStart, atEnd, whole⟩ := exists_blanks_trim s
  rw [whole, List.mem_append, List.mem_append] at member
  exact (member.resolve_right (not_mem_of_blanks atEnd solid)).resolve_left (not_mem_of_blanks atStart solid)

theorem count_trim {c : Char} (solid : ¬ isBlank c) (s : Text) : (trim s).count c = s.count c := by
  obtain ⟨before, after, atStart, atEnd, whole⟩ := exists_blanks_trim s
  have notBefore := List.count_eq_zero_of_not_mem (not_mem_of_blanks atStart solid)
  have notAfter := List.count_eq_zero_of_not_mem (not_mem_of_blanks atEnd solid)
  conv_rhs => rw [whole, List.count_append, List.count_append, notBefore, notAfter, Nat.zero_add, Nat.add_zero]

theorem trim_eq_nil_iff {s : Text} : trim s = [] ↔ Blanks s := by
  constructor
  · intro empty c member
    by_contra solid
    simpa [empty] using mem_trim member solid
  · intro blanks
    exact trim_append_blanks blanks []

/-- What is left of a text without its blanks. -/
def solid (s : Text) : Text := s.filter fun c => !isBlank c

theorem solid_append (a b : Text) : solid (a ++ b) = solid a ++ solid b := List.filter_append ..

theorem solid_of_blanks (areBlanks : Blanks blanks) : solid blanks = [] :=
  List.filter_eq_nil_iff.mpr fun c member => by simpa using areBlanks c member

theorem solid_trim (s : Text) : solid (trim s) = solid s := by
  obtain ⟨before, after, atStart, atEnd, whole⟩ := exists_blanks_trim s
  conv_rhs => rw [whole, solid_append, solid_append, solid_of_blanks atStart, solid_of_blanks atEnd]
  simp

/-- Trimming does not reach over a character that is not a blank. -/
theorem trim_append_cons {c : Char} (solid : ¬ isBlank c) (a b : Text) :
    trim (a ++ c :: b) = trimStart a ++ c :: trimEnd b := by
  obtain ⟨before, atStart, start⟩ := exists_blanks_trimStart a
  obtain ⟨after, atEnd, rest⟩ := exists_trimEnd_blanks b
  have whole : a ++ c :: b = before ++ ((trimStart a ++ c :: trimEnd b) ++ after) := by
    conv_lhs => rw [start, rest]
    simp
  rw [whole, trim_blanks_append atStart, trim_append_blanks atEnd]
  refine trimmed_iff.mpr ⟨fun d first => ?_, fun d last => ?_⟩
  · rw [List.head?_append, Option.mem_def, Option.or_eq_some_iff] at first
    rcases first with inStart | ⟨_, here⟩
    · exact trimStart_head inStart
    · cases here
      exact solid
  · rw [List.getLast?_append_of_ne_nil _ (by simp), List.getLast?_cons] at last
    cases inEnd : (trimEnd b).getLast? with
    | none =>
      rw [inEnd] at last
      cases last
      exact solid
    | some e =>
      rw [inEnd] at last
      cases last
      exact trimEnd_last inEnd

/-- A carriage return at the end of a line is a blank there. -/
theorem exists_dropReturn_blanks (raw : Text) : ∃ blanks, Blanks blanks ∧ raw = dropReturn raw ++ blanks := by
  unfold dropReturn
  split
  · rename_i last
    exact ⟨['\r'], by simp [Blanks, isBlank], (List.dropLast_append_getLast? _ last).symm⟩
  · exact ⟨[], nofun, (List.append_nil raw).symm⟩

theorem trim_dropReturn (raw : Text) : trim (dropReturn raw) = trim raw := by
  obtain ⟨blanks, areBlanks, whole⟩ := exists_dropReturn_blanks raw
  conv_rhs => rw [whole, trim_append_blanks areBlanks]

end RiscAsm.Text
