import RiscAsm.Proofs.LineEdits
import RiscAsm.Proofs.OperandCharacters

namespace RiscAsm

open Text

namespace Text

def IsLetter (c : Char) : Prop := 'A' ≤ c ∧ c ≤ 'Z' ∨ 'a' ≤ c ∧ c ≤ 'z'

def IsDecimal (c : Char) : Prop := '0' ≤ c ∧ c ≤ '9'

/-- A name starts with a letter, an underscore or a full stop, and goes on with these, digits and dollar signs. -/
def IsName (s : Text) : Prop :=
  ∃ c rest, s = c :: rest ∧ (IsLetter c ∨ c = '_' ∨ c = '.') ∧
    ∀ d ∈ rest, IsLetter d ∨ IsDecimal d ∨ d = '_' ∨ d = '.' ∨ d = '$'

theorem isLetter_iff {c : Char} : IsLetter c ↔ c.isAlpha := by
  rw [isAlpha_iff]
  simp only [IsLetter, Char.le_def, UInt32.le_iff_toNat_le, Char.toNat_val]
  rfl

theorem isDecimal_iff {c : Char} : IsDecimal c ↔ c.isDigit := by
  rw [isDigit_iff]
  simp only [IsDecimal, Char.le_def, UInt32.le_iff_toNat_le, Char.toNat_val]
  rfl

theorem isIdentifier_iff {s : Text} : isIdentifier s ↔ IsName s := by
  cases s with
  | nil => simp [isIdentifier, IsName]
  | cons c rest =>
    simp [isIdentifier, IsName, isLetter_iff, isDecimal_iff, Char.isAlphanum, or_assoc]

end Text

namespace SourceLine

/-- The code of a line up to its first colon. -/
def labelText (raw : Text) : Text := (code raw).takeWhile (· != ':')

/-- The code of a line that a statement can stand in, which is what follows the first colon if there is one. -/
def statementText (raw : Text) : Text :=
  if ':' ∈ code raw then ((code raw).dropWhile (· != ':')).tail else code raw

theorem code_eq_of_colon {raw : Text} (colon : ':' ∈ code raw) :
    code raw = labelText raw ++ ':' :: statementText raw := by
  have parts : labelText raw ++ (code raw).dropWhile (· != ':') = code raw := List.takeWhile_append_dropWhile
  have rest : (code raw).dropWhile (· != ':') ≠ [] := fun noColon => by
    simpa using List.dropWhile_eq_nil_iff.mp noColon ':' colon
  have first : ((code raw).dropWhile (· != ':')).head rest = ':' := by
    simpa using List.head_dropWhile_not (· != ':') rest
  conv_lhs => rw [← parts, ← List.cons_head_tail rest, first]
  rw [statementText, if_pos colon]

theorem comment_not_mem_code (raw : Text) : '#' ∉ code raw := fun member => by
  simpa using List.mem_takeWhile_imp member

theorem code_code (raw : Text) : code (code raw) = code raw := code_of_no_comment (comment_not_mem_code raw)

/-- The trimmed code before the first colon is the label, if it is a name, and what the rest of the code says is the
statement. -/
theorem read_eq (raw : Text) :
    read raw = if ':' ∈ code raw then
      if isIdentifier (trim (labelText raw)) then .ok ⟨some (trim (labelText raw)), statementOf (trim (statementText raw))⟩
      else .error (.invalidOperand (.badLabelName (trim (labelText raw))))
    else .ok ⟨none, statementOf (trim (statementText raw))⟩ := by
  split
  · rename_i colon
    have whole := code_eq_of_colon colon
    have noComment := comment_not_mem_code raw
    rw [whole, List.mem_append, not_or] at noComment
    have noColon : ':' ∉ labelText raw := fun member => by simpa using List.mem_takeWhile_imp member
    have same : code (statementText raw) = statementText raw :=
      code_of_no_comment fun member => noComment.2 (List.mem_cons_of_mem _ member)
    rw [read_congr (congrArg trim (code_code raw).symm), whole, read_of_colon noColon noComment.1, same]
  · rename_i noColon
    rw [read_of_no_colon noColon, statementText, if_neg noColon]

/-- A trimmed text that is not empty starts with a word, and its operands follow after blanks. -/
theorem exists_word_of_statementOf {text : Text} (trimmed : Trimmed text) {s : Statement}
    (found : statementOf text = some s) :
    ∃ word gap after, text = word ++ (gap ++ s.operands ++ after) ∧ Blanks gap ∧ Blanks after ∧
      s.mnemonic = word.map Char.toLower ∧ word ≠ [] ∧ ∀ c ∈ word, ¬ isBlank c := by
  unfold statementOf at found
  split at found
  · cases found
  · rename_i nonempty
    split at found
    · rename_i word operands cut
      cases found
      obtain ⟨c, blank, solidWord, whole⟩ := cutAt_eq_some cut
      obtain ⟨before, after, atStart, atEnd, tail⟩ := exists_blanks_trim operands
      refine ⟨word, c :: before, after, ?_, List.forall_mem_cons.mpr ⟨blank, atStart⟩, atEnd, rfl, ?_, solidWord⟩
      · rw [whole, List.cons_append, List.cons_append, ← tail]
      · rintro rfl
        exact (trimmed_iff.mp trimmed).1 c (by rw [whole]; rfl) blank
    · rename_i cut
      cases found
      exact ⟨text, [], [], by simp, nofun, nofun, rfl, by simpa using nonempty, cutAt_eq_none.mp cut⟩

theorem statementOf_eq_none {text : Text} : statementOf text = none ↔ text = [] := by
  unfold statementOf
  split
  · rename_i empty
    simpa using empty
  · rename_i nonempty
    split <;> simpa using nonempty

/-- The text of a line: its label with a colon, and its statement. -/
def text (line : SourceLine) : Text :=
  ((line.label.map (· ++ ": ".toList)).getD []) ++ (line.statement.map Statement.text).getD []

end SourceLine

namespace Statement

open SourceLine

variable {s : Statement} {text : Text}

/-- A statement as a line gives it. -/
structure Formed (s : Statement) : Prop where
  mnemonic : IsWord s.mnemonic
  lower : s.mnemonic.map Char.toLower = s.mnemonic
  trimmed : Trimmed s.operands

/-- A mark in the text of a statement comes from the line. -/
theorem mark_mem_of_statementOf (trimmed : Trimmed text) (found : statementOf text = some s) {c : Char}
    (mark : ¬ isPlain c) (visible : ¬ isBlank c) (member : c ∈ s.text) : c ∈ text := by
  obtain ⟨word, gap, after, whole, _, _, lower, _⟩ := exists_word_of_statementOf trimmed found
  have letters : word.map Char.toLower = s.mnemonic.map Char.toLower := by simp [lower]
  have inMnemonic : c ∈ s.mnemonic → c ∈ text := fun inside => by
    rw [whole]
    exact List.mem_append_left _ (mem_of_sameLetters letters inside mark)
  unfold Statement.text at member
  split at member
  · exact inMnemonic member
  · rcases List.mem_append.mp member with inside | later
    · exact inMnemonic inside
    · rcases List.mem_cons.mp later with rfl | inOperands
      · exact absurd (by decide) visible
      · rw [whole]
        simp [inOperands]

theorem formed_of_statementOf (trimmed : Trimmed text) (noComment : '#' ∉ text) (found : statementOf text = some s) :
    s.Formed := by
  obtain ⟨word, gap, after, whole, _, _, lower, nonempty, visible⟩ := exists_word_of_statementOf trimmed found
  have isWord : IsWord word := ⟨nonempty, visible, fun member => noComment (by rw [whole]; simp [member])⟩
  have letters : word.map Char.toLower = s.mnemonic.map Char.toLower := by simp [lower]
  exact ⟨isWord.of_sameLetters letters, by simp [lower], (operands_of_statementOf found).1⟩

/-- The text of a statement is read as that statement. -/
theorem Formed.statementOf_text (formed : s.Formed) {indent : Text} (areBlanks : Blanks indent) :
    statementOf (trim (indent ++ s.text)) = some s := by
  have operands : trim s.operands = s.operands := formed.trimmed
  unfold Statement.text
  split
  · rename_i noOperands
    have empty : ⟨s.mnemonic, []⟩ = s := by rw [← List.isEmpty_iff.mp noOperands]
    have same := @statementOf_trim indent s.mnemonic [] areBlanks formed.mnemonic nofun
    rwa [List.append_nil, formed.lower, show trim [] = [] from rfl, empty] at same
  · have same := @statementOf_trim indent s.mnemonic (' ' :: s.operands) areBlanks formed.mnemonic (by simp; decide)
    rwa [formed.lower, trim_cons_blank (by decide), operands] at same

end Statement

namespace SourceLine

variable {raw : Text} {line : SourceLine}

def labelName? (raw : Text) : Option Text := if ':' ∈ code raw then some (trim (labelText raw)) else none

def statement? (raw : Text) : Option Statement := statementOf (trim (statementText raw))

theorem read_eq_ok_iff : read raw = .ok line ↔
    (':' ∈ code raw → isIdentifier (trim (labelText raw))) ∧ line = ⟨labelName? raw, statement? raw⟩ := by
  rw [read_eq, labelName?, statement?]
  by_cases colon : ':' ∈ code raw
  · by_cases identifier : isIdentifier (trim (labelText raw))
    · simp only [colon, identifier, if_true, Except.ok.injEq, true_implies, true_and]
      exact eq_comm
    · simp [colon, identifier]
  · simp only [colon, if_false, Except.ok.injEq, false_implies, true_and]
    exact eq_comm

/-- What a line says that can be read. -/
structure Says (raw : Text) (line : SourceLine) : Prop where
  label : line.label = if ':' ∈ code raw then some (trim (labelText raw)) else none
  name : ∀ name ∈ line.label, IsName name
  mnemonic : ∀ s ∈ line.statement, s.mnemonic ≠ [] ∧ ∀ c ∈ s.mnemonic, ¬ isBlank c ∧ ¬ c.isUpper
  operands : ∀ s ∈ line.statement,
    (∀ c ∈ s.operands.head?, ¬ isBlank c) ∧ ∀ c ∈ s.operands.getLast?, ¬ isBlank c
  noComment : '#' ∉ line.text
  kept : ∃ word, (line.statement.map Statement.mnemonic).getD [] = word.map Char.toLower ∧
    solid ((line.label.map (· ++ [':'])).getD [] ++ word ++ (line.statement.map Statement.operands).getD []) =
      solid (code raw)
  silent : line.statement = none ↔ ∀ c ∈ statementText raw, isBlank c
  again : read line.text = .ok line

theorem comment_not_mem_parts (raw : Text) : '#' ∉ labelText raw ∧ '#' ∉ statementText raw := by
  have absent := comment_not_mem_code raw
  by_cases colon : ':' ∈ code raw
  · rw [code_eq_of_colon colon] at absent
    simpa using absent
  · refine ⟨fun member => absent ((List.takeWhile_prefix _).subset member), ?_⟩
    rwa [statementText, if_neg colon]

/-- The label with its colon and the rest of the code hold all of the code but its blanks. -/
theorem solid_code (raw : Text) :
    solid (code raw) = solid (((labelName? raw).map (· ++ [':'])).getD []) ++ solid (statementText raw) := by
  by_cases colon : ':' ∈ code raw
  · conv_lhs => rw [code_eq_of_colon colon, List.append_cons, solid_append, solid_append]
    rw [labelName?, if_pos colon, Option.map_some, Option.getD_some, solid_append, solid_trim]
  · rw [labelName?, statementText, if_neg colon, if_neg colon]
    rfl

theorem statementOf_rendered {indent text : Text} (areBlanks : Blanks indent) (trimmed : Trimmed text)
    (noComment : '#' ∉ text) :
    statementOf (trim (indent ++ ((statementOf text).map Statement.text).getD [])) = statementOf text := by
  cases found : statementOf text with
  | none => simp [statementOf_eq_none, trim_eq_nil_iff, areBlanks]
  | some s => exact (Statement.formed_of_statementOf trimmed noComment found).statementOf_text areBlanks

theorem mem_labelText_of_mem {c : Char} (member : c ∈ ((labelName? raw).map (· ++ ": ".toList)).getD [])
    (mark : c ∉ ": ".toList) : c ∈ labelText raw := by
  by_cases colon : ':' ∈ code raw
  · rw [labelName?, if_pos colon, Option.map_some, Option.getD_some, List.mem_append] at member
    exact trim_subset (member.resolve_right mark)
  · simp [labelName?, colon] at member

/-- The statement of a line as it is written. -/
def statementPart (raw : Text) : Text := ((statement? raw).map Statement.text).getD []

theorem mem_of_mem_statementPart {c : Char} (mark : ¬ isPlain c) (visible : ¬ isBlank c)
    (member : c ∈ statementPart raw) : c ∈ trim (statementText raw) := by
  cases found : statement? raw with
  | none => simp [statementPart, found] at member
  | some s =>
    have inText : c ∈ s.text := by simpa [statementPart, found] using member
    exact Statement.mark_mem_of_statementOf (trimmed_trim _) found mark visible inText

/-- The text of what a line says is read again as that. -/
theorem read_text (identifier : ':' ∈ code raw → isIdentifier (trim (labelText raw))) :
    read (text ⟨labelName? raw, statement? raw⟩) = .ok ⟨labelName? raw, statement? raw⟩ := by
  have trimmed := trimmed_trim (statementText raw)
  have comment : '#' ∉ trim (statementText raw) := fun member => (comment_not_mem_parts raw).2 (trim_subset member)
  have absent : '#' ∉ statementPart raw := fun member =>
    comment (mem_of_mem_statementPart (by decide) (by decide) member)
  by_cases colon : ':' ∈ code raw
  · have plain := plain_of_isIdentifier (identifier colon)
    have name : trim (trim (labelText raw)) = trim (labelText raw) := plain.trimmed
    have noColon : ':' ∉ trim (labelText raw) := fun member => absurd (plain.2 _ member) (by decide)
    have noComment : '#' ∉ trim (labelText raw) := fun member => absurd (plain.2 _ member) (by decide)
    have whole : text ⟨labelName? raw, statement? raw⟩ = trim (labelText raw) ++ ':' :: ' ' :: statementPart raw := by
      simp [text, labelName?, colon, statementPart]
    have rest : code (' ' :: statementPart raw) = ' ' :: statementPart raw :=
      code_of_no_comment (by simpa using absent)
    have again : statementOf (trim (' ' :: statementPart raw)) = statement? raw :=
      @statementOf_rendered [' '] _ (by simp [Blanks, isBlank]) trimmed comment
    rw [whole, read_of_colon noColon noComment, name, if_pos (identifier colon), rest, again, labelName?, if_pos colon]
  · have whole : text ⟨labelName? raw, statement? raw⟩ = statementPart raw := by
      simp [text, labelName?, colon, statementPart]
    have noColon : ':' ∉ statementPart raw := fun member => by
      have inCode := mem_of_mem_statementPart (by decide) (by decide) member
      rw [statementText, if_neg colon] at inCode
      exact colon (trim_subset inCode)
    have again : statementOf (trim (statementPart raw)) = statement? raw :=
      @statementOf_rendered [] _ (by simp [Blanks]) trimmed comment
    rw [whole, read_of_no_colon (by rwa [code_of_no_comment absent]), code_of_no_comment absent, again, labelName?,
      if_neg colon]

theorem says_of_read (read : read raw = .ok line) : Says raw line := by
  obtain ⟨identifier, rfl⟩ := read_eq_ok_iff.mp read
  obtain ⟨noCommentBefore, noCommentAfter⟩ := comment_not_mem_parts raw
  have trimmed := trimmed_trim (statementText raw)
  have absent : '#' ∉ trim (statementText raw) := fun member => noCommentAfter (trim_subset member)
  constructor
  case label => rfl
  case name =>
    intro name labelled
    by_cases colon : ':' ∈ code raw
    · simp only [labelName?, colon, if_true, Option.mem_def, Option.some.injEq] at labelled
      rw [← labelled, ← isIdentifier_iff]
      exact identifier colon
    · simp [labelName?, colon] at labelled
  case mnemonic =>
    intro s found
    have formed := Statement.formed_of_statementOf trimmed absent found
    refine ⟨formed.mnemonic.nonempty, fun c member => ⟨formed.mnemonic.solid c member, ?_⟩⟩
    rw [← formed.lower] at member
    obtain ⟨d, _, rfl⟩ := List.mem_map.mp member
    simp
  case operands =>
    intro s found
    exact trimmed_iff.mp (operands_of_statementOf found).1
  case noComment =>
    intro member
    rcases List.mem_append.mp member with inLabel | inStatement
    · exact noCommentBefore (mem_labelText_of_mem inLabel (by decide))
    · exact absent (mem_of_mem_statementPart (by decide) (by decide) inStatement)
  case kept =>
    dsimp only
    simp only [solid_code raw, solid_append, List.append_assoc, ← solid_trim (statementText raw)]
    cases found : statement? raw with
    | none => exact ⟨[], rfl, by simp [statementOf_eq_none.mp found, solid]⟩
    | some s =>
      obtain ⟨word, gap, after, whole, areBlanks, atEnd, lower, _⟩ := exists_word_of_statementOf trimmed found
      refine ⟨word, lower, ?_⟩
      rw [whole]
      simp [solid_append, solid_of_blanks areBlanks, solid_of_blanks atEnd]
  case silent =>
    rw [statement?, statementOf_eq_none, trim_eq_nil_iff]
    rfl
  case again => exact read_text identifier

/-- Lines are read by an exact grammar and without loss. A line is at fault if its code has a colon and what stands
before the first colon is no name. From any other line a label and a statement are read that together hold all of its
code but the blanks, and writing them down gives a line that says the same. -/
theorem reads_exactly (raw : Text) :
    (∀ fault, read raw = .error fault ↔ (':' ∈ code raw ∧ ¬ IsName (trim (labelText raw))) ∧
      fault = .invalidOperand (.badLabelName (trim (labelText raw)))) ∧
    ((∃ line, read raw = .ok line) ↔ ¬ (':' ∈ code raw ∧ ¬ IsName (trim (labelText raw)))) ∧
    ∀ line, read raw = .ok line → Says raw line := by
  refine ⟨fun fault => ?_, ?_, fun line => says_of_read⟩
  · rw [read_eq, ← isIdentifier_iff]
    split
    · rename_i colon
      split
      · rename_i name
        simp [name]
      · rename_i noName
        simp [colon, noName, eq_comm]
    · rename_i noColon
      simp [noColon]
  · simp only [read_eq_ok_iff, isIdentifier_iff, exists_and_left, exists_eq, and_true, not_and, not_not]

/-- A second colon belongs to the operands, and a colon in the comment is none. -/
theorem reads_exactly_labelled :
    read " Start :\tADDI  $t0,a:b # c: d".toList = .ok ⟨some "Start".toList, some ⟨"addi".toList, "$t0,a:b".toList⟩⟩ ∧
      Says " Start :\tADDI  $t0,a:b # c: d".toList
        ⟨some "Start".toList, some ⟨"addi".toList, "$t0,a:b".toList⟩⟩ := by
  have evaluated : read " Start :\tADDI  $t0,a:b # c: d".toList =
      .ok ⟨some "Start".toList, some ⟨"addi".toList, "$t0,a:b".toList⟩⟩ := by decide +kernel
  exact ⟨evaluated, (reads_exactly _).2.2 _ evaluated⟩

end SourceLine

end RiscAsm
