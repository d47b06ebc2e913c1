import RiscAsm.Proofs.LabelNames
import RiscAsm.SourceLine

namespace RiscAsm

open Text

/-- Operands as they are printed, with a comma and a blank between them. -/
def printed (tokens : List Text) : Text := ", ".toList.intercalate tokens

theorem printed_cons_cons (token next : Text) (rest : List Text) :
    printed (token :: next :: rest) = token ++ [',', ' '] ++ printed (next :: rest) := by
  simp [printed, List.intercalate_cons_cons]

theorem printed_ne_nil {token : Text} {rest : List Text} (nonempty : token ≠ []) : printed (token :: rest) ≠ [] := by
  cases rest with
  | nil => simpa [printed] using nonempty
  | cons next others => simp [printed_cons_cons]

variable {mnemonic : Text} {tokens : List Text}

theorem mem_printed {c : Char} (member : c ∈ printed tokens) : (∃ token ∈ tokens, c ∈ token) ∨ c = ',' ∨ c = ' ' :=
  (mem_intercalate member).imp_right fun inMark => by simpa using inMark

theorem trimmed_printed (areTokens : ∀ token ∈ tokens, Operand.IsToken token) : Trimmed (printed tokens) := by
  induction tokens with
  | nil => rfl
  | cons token rest ih =>
    obtain ⟨nonempty, _, trimmed⟩ := areTokens token List.mem_cons_self
    cases rest with
    | nil => simpa [printed] using trimmed
    | cons next others =>
      have later := ih (fun other inRest => areTokens other (List.mem_cons_of_mem _ inRest))
      have someLater : printed (next :: others) ≠ [] := printed_ne_nil (areTokens next (by simp)).1
      rw [printed_cons_cons]
      exact trimmed.append_append later nonempty someLater _

theorem split_printed (plain : ∀ token ∈ tokens, Plain token) : Operand.split (printed tokens) = tokens :=
  Operand.split_intercalate fun token member => Operand.isToken_of_plain (plain token member)

namespace SourceLine

theorem code_append {before : Text} (noComment : '#' ∉ before) (after : Text) :
    code (before ++ after) = before ++ code after := by
  unfold code
  rw [List.takeWhile_append_of_pos]
  rintro c member
  simpa using fun same : c = '#' => noComment (same ▸ member)

theorem code_of_comment {raw : Text} (comment : '#' ∈ raw) (more : Text) : code (raw ++ more) = code raw := by
  obtain ⟨before, after, rfl⟩ := List.append_of_mem comment
  simp [code, List.takeWhile_append]

theorem code_of_no_comment {raw : Text} (noComment : '#' ∉ raw) : code raw = raw := by
  simpa [code] using code_append noComment []

theorem read_congr {raw other : Text} (same : trim (code raw) = trim (code other)) : read raw = read other := by
  unfold read
  rw [same]

theorem read_append_blanks {blanks : Text} (areBlanks : Blanks blanks) (raw : Text) :
    read (raw ++ blanks) = read raw := by
  refine read_congr ?_
  by_cases comment : '#' ∈ raw
  · rw [code_of_comment comment]
  · rw [code_append comment, code_of_no_comment comment,
      code_of_no_comment (not_mem_of_blanks areBlanks (by decide)), trim_append_blanks areBlanks]

theorem read_dropReturn (raw : Text) : read (dropReturn raw) = read raw := by
  obtain ⟨blanks, areBlanks, whole⟩ := exists_dropReturn_blanks raw
  conv_rhs => rw [whole, read_append_blanks areBlanks]

/-- A line whose first colon is not in a comment has the trimmed text before it as its label. -/
theorem read_of_colon {before : Text} (noColon : ':' ∉ before) (noComment : '#' ∉ before) (after : Text) :
    read (before ++ ':' :: after) =
      if isIdentifier (trim before) then .ok ⟨some (trim before), statementOf (trim (code after))⟩
      else .error (.invalidOperand (.badLabelName (trim before))) := by
  have whole : trim (code (before ++ ':' :: after)) = trimStart before ++ ':' :: trimEnd (code after) := by
    rw [code_append noComment, show code (':' :: after) = ':' :: code after by simp [code],
      trim_append_cons (by decide)]
  have noColonToo : ∀ c ∈ trimStart before, ¬ (c == ':') := by
    rintro c member same
    exact noColon (beq_iff_eq.mp same ▸ (List.dropWhile_suffix isBlank).subset member)
  unfold read
  rw [whole]
  simp only [cutAt_append noColonToo (show (':' == ':') = true from rfl), trim_trimStart, trim_trimEnd]

theorem read_of_no_colon {raw : Text} (noColon : ':' ∉ code raw) :
    read raw = .ok ⟨none, statementOf (trim (code raw))⟩ := by
  have uncut : cutAt (· == ':') (trim (code raw)) = none := by
    refine cutAt_eq_none.mpr fun c member same => noColon ?_
    exact beq_iff_eq.mp same ▸ trim_subset member
  unfold read
  simp only [uncut]

end SourceLine

namespace Statement

/-- A statement that can stand on a line of its own, where nothing in it is taken for a comment or a label. -/
structure Writable (s : Statement) : Prop where
  mnemonic : Plain s.mnemonic
  lower : s.mnemonic.map Char.toLower = s.mnemonic
  trimmed : Trimmed s.operands
  inside : ∀ c ∈ s.operands, c ≠ '#' ∧ c ≠ ':' ∧ c ≠ '\n'

namespace Writable

variable {s : Statement}

theorem mem_text (writable : s.Writable) {c : Char} (member : c ∈ s.text) : c ≠ '#' ∧ c ≠ ':' ∧ c ≠ '\n' := by
  have ofMnemonic : ∀ c ∈ s.mnemonic, c ≠ '#' ∧ c ≠ ':' ∧ c ≠ '\n' := by
    intro c inMnemonic
    obtain ⟨solid, _, noComment, noColon⟩ := isPlain_iff.mp (writable.mnemonic.2 c inMnemonic)
    exact ⟨noComment, noColon, by rintro rfl; exact solid (by decide)⟩
  unfold text at member
  split at member
  · exact ofMnemonic c member
  · rcases List.mem_append.mp member with inMnemonic | later
    · exact ofMnemonic c inMnemonic
    · rcases List.mem_cons.mp later with rfl | inOperands
      · decide
      · exact writable.inside c inOperands

theorem trimmed_text (writable : s.Writable) : Trimmed s.text := by
  unfold text
  split
  · exact writable.mnemonic.trimmed
  · rename_i nonempty
    have operands : s.operands ≠ [] := by simpa using nonempty
    have whole := writable.mnemonic.trimmed.append_append writable.trimmed writable.mnemonic.1 operands [' ']
    simpa using whole

theorem text_ne_nil (writable : s.Writable) : s.text ≠ [] := by
  unfold text
  split <;> simp [writable.mnemonic.1]

theorem isLine_text (writable : s.Writable) : IsLine s.text :=
  isLine_of_trimmed writable.trimmed_text fun member => (writable.mem_text member).2.2 rfl

theorem statementOf_text (writable : s.Writable) : SourceLine.statementOf s.text = some s := by
  have solid : ∀ c ∈ s.mnemonic, ¬ isBlank c := fun c member => (isPlain_iff.mp (writable.mnemonic.2 c member)).1
  have operands : trim s.operands = s.operands := writable.trimmed
  unfold text SourceLine.statementOf
  split
  · rename_i noOperands
    have empty : ⟨s.mnemonic, []⟩ = s := by rw [← List.isEmpty_iff.mp noOperands]
    rw [cutAt_eq_none.mpr solid]
    simp [writable.mnemonic.1, writable.lower, empty]
  · rw [cutAt_append solid (by decide)]
    simp [writable.lower, operands]

/-- A written statement is read back as that statement, without a label. -/
theorem read_text (writable : s.Writable) : SourceLine.read s.text = .ok ⟨none, some s⟩ := by
  have whole : SourceLine.code s.text = s.text :=
    SourceLine.code_of_no_comment fun member => (writable.mem_text member).1 rfl
  have noColon : ':' ∉ SourceLine.code s.text := by
    rw [whole]
    exact fun member => (writable.mem_text member).2.1 rfl
  rw [SourceLine.read_of_no_colon noColon, whole, writable.trimmed_text, writable.statementOf_text]

end Writable

theorem writable_printed (mnemonicPlain : Plain mnemonic) (lower : mnemonic.map Char.toLower = mnemonic)
    (plain : ∀ token ∈ tokens, Plain token) : Writable ⟨mnemonic, printed tokens⟩ where
  mnemonic := mnemonicPlain
  lower := lower
  trimmed := trimmed_printed fun token member => Operand.isToken_of_plain (plain token member)
  inside := by
    intro c member
    rcases mem_printed member with ⟨token, inTokens, inToken⟩ | rfl | rfl
    · obtain ⟨solid, _, noComment, noColon⟩ := isPlain_iff.mp ((plain token inTokens).2 c inToken)
      exact ⟨noComment, noColon, by rintro rfl; exact solid (by decide)⟩
    · decide
    · decide

end Statement

/-- A name with its colon stays as it is on a line. -/
theorem isPlain_or_colon_of_label {name : Text} (identifier : isIdentifier name) :
    ∀ c ∈ name ++ [':'], isPlain c ∨ c = ':' := by
  intro c member
  rcases List.mem_append.mp member with inName | last
  · exact Or.inl ((plain_of_isIdentifier identifier).2 c inName)
  · exact Or.inr (List.mem_singleton.mp last)

theorem trimmed_label {name : Text} (identifier : isIdentifier name) : Trimmed (name ++ [':']) := by
  refine trimmed_of_no_blank fun c member => ?_
  rcases isPlain_or_colon_of_label identifier c member with plain | rfl
  · exact (isPlain_iff.mp plain).1
  · decide

theorem isLine_label {name : Text} (identifier : isIdentifier name) : IsLine (name ++ [':']) := by
  refine isLine_of_trimmed (trimmed_label identifier) fun member => ?_
  rcases isPlain_or_colon_of_label identifier _ member with plain | same
  · exact (isPlain_iff.mp plain).1 (by decide)
  · cases same

/-- A name with its colon is read as a label alone. -/
theorem SourceLine.read_label {name : Text} (identifier : isIdentifier name) :
    read (name ++ [':']) = .ok ⟨some name, none⟩ := by
  have plain := plain_of_isIdentifier identifier
  have trimmed : trim name = name := plain.trimmed
  have noColon : ':' ∉ name := fun member => (isPlain_iff.mp (plain.2 _ member)).2.2.2 rfl
  have noComment : '#' ∉ name := fun member => (isPlain_iff.mp (plain.2 _ member)).2.2.1 rfl
  rw [read_of_colon noColon noComment, trimmed, if_pos identifier]
  rfl

end RiscAsm
