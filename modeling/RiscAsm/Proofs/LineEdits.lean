import RiscAsm.Proofs.SourceText

namespace RiscAsm

open Text

namespace SourceLine

/-- A mnemonic as it stands on a line. -/
structure IsWord (word : Text) : Prop where
  nonempty : word ≠ []
  solid : ∀ c ∈ word, ¬ isBlank c
  noComment : '#' ∉ word

/-- A mnemonic ends where its line does, or else at a blank. -/
theorem statementOf_trim {indent word tail : Text} (blanks : Blanks indent) (isWord : IsWord word)
    (ends : ∀ c ∈ tail.head?, isBlank c) :
    statementOf (trim (indent ++ (word ++ tail))) = some ⟨word.map Char.toLower, trim tail⟩ := by
  have wordTrimmed := trimmed_of_no_blank isWord.solid
  obtain ⟨before, after, atStart, atEnd, whole⟩ := exists_blanks_trim tail
  rw [trim_blanks_append blanks]
  conv_lhs => rw [whole, ← List.append_assoc, trim_append_blanks atEnd]
  by_cases empty : trim tail = []
  · rw [empty, List.append_nil, trim_append_blanks atStart, wordTrimmed]
    unfold statementOf
    rw [cutAt_eq_none.mpr isWord.solid]
    simp [isWord.nonempty]
  · -- The tail does not start with what trimming leaves of it, so there are blanks before that.
    cases before with
    | nil =>
      obtain ⟨c, rest, kept⟩ := List.exists_cons_of_ne_nil empty
      rw [kept] at whole
      exact absurd (ends c (by rw [whole]; rfl)) (trim_head (by rw [kept]; rfl))
    | cons c rest =>
      have trimmed := wordTrimmed.append_append (trimmed_trim tail) isWord.nonempty empty (c :: rest)
      rw [← List.append_assoc, trimmed]
      unfold statementOf
      rw [List.append_assoc, List.cons_append, cutAt_append isWord.solid (atStart c List.mem_cons_self)]
      have others : Blanks rest := fun d member => atStart d (List.mem_cons_of_mem _ member)
      have again : trim (trim tail) = trim tail := trimmed_trim tail
      simp [isWord.nonempty, trim_blanks_append others, again]

end SourceLine

/-- What a line says: its label, and the mnemonic and operands of its statement. -/
structure TokenLine where
  label : Option Text
  statement : Option (Text × List Text)
  deriving DecidableEq

def Statement.tokens (s : Statement) : Text × List Text := (s.mnemonic, Operand.split s.operands)

def SourceLine.tokens (line : SourceLine) : TokenLine := ⟨line.label, line.statement.map Statement.tokens⟩

/-- What a raw line says, or its fault. -/
def SourceLine.scan (raw : Text) : Except Fault TokenLine := tokens <$> read raw

namespace SourceLine

theorem tokens_statementOf {indent word tail : Text} (blanks : Blanks indent) (isWord : IsWord word)
    (ends : ∀ c ∈ tail.head?, isBlank c ∨ c = '#') :
    (statementOf (trim (code (indent ++ (word ++ tail))))).map Statement.tokens =
      some (word.map Char.toLower, Operand.split (code tail)) := by
  rw [code_append (not_mem_of_blanks blanks (by decide)), code_append isWord.noComment,
    statementOf_trim blanks isWord, Option.map_some, Statement.tokens, Operand.split_trim]
  intro c first
  cases tail with
  | nil => cases first
  | cons d rest =>
    by_cases comment : d = '#'
    · subst comment
      simp [code] at first
    · have kept : code (d :: rest) = d :: code rest := by simp [code, comment]
      rw [kept] at first
      cases first
      exact (ends _ rfl).resolve_right comment

end SourceLine

/-- Edits of what follows a mnemonic. -/
inductive TailEdit : Text → Text → Prop
  | gap {gap wider : Text} (blank : Blanks gap) (blankToo : Blanks wider) (nonempty : gap ≠ [])
    (nonemptyToo : wider ≠ []) (rest : Text) : TailEdit (gap ++ rest) (wider ++ rest)
  | comma {before blanks blanksToo : Text} (gap : ∃ c ∈ before.head?, isBlank c) (noComment : '#' ∉ before)
    (areBlanks : Blanks blanks) (areBlanksToo : Blanks blanksToo) (after : Text) :
    TailEdit (before ++ ',' :: after) (before ++ (blanks ++ ',' :: (blanksToo ++ after)))

/-- Edits of a statement, which starts with its mnemonic after any blanks. -/
inductive StatementEdit : Text → Text → Prop
  | letters {indent word other : Text} (blanks : Blanks indent) (isWord : SourceLine.IsWord word)
    (sameLetters : word.map Char.toLower = other.map Char.toLower) {tail : Text}
    (ends : ∀ c ∈ tail.head?, isBlank c ∨ c = '#') :
    StatementEdit (indent ++ (word ++ tail)) (indent ++ (other ++ tail))
  | operands {indent word : Text} (blanks : Blanks indent) (isWord : SourceLine.IsWord word) {tail edited : Text}
    (edit : TailEdit tail edited) : StatementEdit (indent ++ (word ++ tail)) (indent ++ (word ++ edited))

/-- Edits of a line that change only its layout, its comment or the case of its mnemonic. A carriage return counts as
a blank at the end of the line. -/
inductive LineEdit : Text → Text → Prop
  | start {blanks : Text} (areBlanks : Blanks blanks) (raw : Text) : LineEdit raw (blanks ++ raw)
  | finish {blanks : Text} (areBlanks : Blanks blanks) (raw : Text) : LineEdit raw (raw ++ blanks)
  | comment (raw text : Text) : LineEdit raw (raw ++ '#' :: text)
  | colon {before blanks blanksToo : Text} (noColon : ':' ∉ before) (noComment : '#' ∉ before)
    (areBlanks : Blanks blanks) (areBlanksToo : Blanks blanksToo) (after : Text) :
    LineEdit (before ++ ':' :: after) (before ++ blanks ++ ':' :: (blanksToo ++ after))
  | statement {raw edited : Text} (noColon : ':' ∉ SourceLine.code raw) (edit : StatementEdit raw edited) :
    LineEdit raw edited
  | labelled {before after edited : Text} (noColon : ':' ∉ before) (noComment : '#' ∉ before)
    (edit : StatementEdit after edited) : LineEdit (before ++ ':' :: after) (before ++ ':' :: edited)

/-- Letters that change their case stay letters, so all other characters stay as they are. -/
theorem mem_of_sameLetters {word other : Text} (same : word.map Char.toLower = other.map Char.toLower) {c : Char}
    (member : c ∈ other) (mark : ¬ isPlain c) : c ∈ word := by
  have noLetter : c.isAlpha = false := by
    by_contra letter
    exact mark (isPlain_of_isAlphanum (by simp_all [Char.isAlphanum]))
  obtain ⟨d, inWord, lower⟩ : ∃ d ∈ word, d.toLower = c.toLower := by
    have inLower := List.mem_map_of_mem (f := Char.toLower) member
    rwa [← same, List.mem_map] at inLower
  have noLetterToo : d.isAlpha = false := by
    rw [← Char.isAlpha_toLower_eq_isAlpha, lower, Char.isAlpha_toLower_eq_isAlpha, noLetter]
  have unchanged : ∀ e : Char, e.isAlpha = false → e.toLower = e := fun e other =>
    Char.toLower_eq_of_not_isUpper fun upper => by simp [Char.isAlpha, upper] at other
  rw [unchanged c noLetter, unchanged d noLetterToo] at lower
  exact lower ▸ inWord

theorem SourceLine.IsWord.of_sameLetters {word other : Text} (isWord : IsWord word)
    (same : word.map Char.toLower = other.map Char.toLower) : IsWord other where
  nonempty := by
    rintro rfl
    exact isWord.nonempty (List.map_eq_nil_iff.mp same)
  solid c member blank :=
    isWord.solid c (mem_of_sameLetters same member fun plain => (isPlain_iff.mp plain).1 blank) blank
  noComment member := isWord.noComment (mem_of_sameLetters same member (by decide))

namespace TailEdit

open SourceLine

variable {tail edited : Text}

/-- Before and after the edit a blank stands behind the mnemonic. -/
theorem ends (edit : TailEdit tail edited) : (∀ c ∈ tail.head?, isBlank c) ∧ ∀ c ∈ edited.head?, isBlank c := by
  cases edit with
  | gap blank blankToo nonempty nonemptyToo rest =>
    rw [List.head?_append_of_ne_nil _ nonempty, List.head?_append_of_ne_nil _ nonemptyToo]
    refine ⟨fun c first => blank c ?_, fun c first => blankToo c ?_⟩ <;> exact List.mem_of_mem_head? first
  | comma gap =>
    obtain ⟨c, first, blank⟩ := gap
    have nonempty := List.ne_nil_of_mem (List.mem_of_mem_head? first)
    rw [List.head?_append_of_ne_nil _ nonempty, List.head?_append_of_ne_nil _ nonempty, first]
    simpa using blank

theorem code_edited_comma {before blanks blanksToo after : Text} (noComment : '#' ∉ before) (areBlanks : Blanks blanks)
    (areBlanksToo : Blanks blanksToo) :
    code (before ++ (blanks ++ ',' :: (blanksToo ++ after))) =
      before ++ (blanks ++ ',' :: (blanksToo ++ code after)) := by
  rw [code_append noComment, code_append (not_mem_of_blanks areBlanks (by decide)), ← List.singleton_append,
    code_append (by decide), code_append (not_mem_of_blanks areBlanksToo (by decide)), List.singleton_append]

theorem code_comma {before after : Text} (noComment : '#' ∉ before) :
    code (before ++ ',' :: after) = before ++ ',' :: code after :=
  @code_edited_comma before [] [] after noComment nofun nofun

theorem split_eq (edit : TailEdit tail edited) : Operand.split (code edited) = Operand.split (code tail) := by
  cases edit with
  | gap blank blankToo _ _ rest =>
    rw [code_append (not_mem_of_blanks blank (by decide)), code_append (not_mem_of_blanks blankToo (by decide)),
      Operand.split_blanks_append blank, Operand.split_blanks_append blankToo]
  | comma _ noComment areBlanks areBlanksToo after =>
    rw [code_comma noComment, code_edited_comma noComment areBlanks areBlanksToo, ← List.append_assoc,
      Operand.split_append_comma, Operand.split_append_comma, Operand.split_append_blanks areBlanks,
      Operand.split_blanks_append areBlanksToo]

theorem mem_code (edit : TailEdit tail edited) {c : Char} (solid : ¬ isBlank c) (member : c ∈ code edited) :
    c ∈ code tail := by
  cases edit with
  | gap blank blankToo _ _ rest =>
    rw [code_append (not_mem_of_blanks blank (by decide))]
    rw [code_append (not_mem_of_blanks blankToo (by decide))] at member
    exact List.mem_append_right _ ((List.mem_append.mp member).resolve_left (not_mem_of_blanks blankToo solid))
  | comma _ noComment areBlanks areBlanksToo after =>
    rw [code_edited_comma noComment areBlanks areBlanksToo] at member
    rw [code_comma noComment]
    have absent := not_mem_of_blanks areBlanks solid
    have absentToo := not_mem_of_blanks areBlanksToo solid
    simp only [List.mem_append, List.mem_cons] at member ⊢
    tauto

end TailEdit

namespace StatementEdit

open SourceLine

variable {raw edited : Text}

theorem tokens_eq (edit : StatementEdit raw edited) :
    (statementOf (trim (code edited))).map Statement.tokens = (statementOf (trim (code raw))).map Statement.tokens := by
  cases edit with
  | letters blanks isWord same ends =>
    rw [tokens_statementOf blanks isWord ends, tokens_statementOf blanks (isWord.of_sameLetters same) ends, same]
  | operands blanks isWord edit =>
    obtain ⟨atTail, atEdited⟩ := edit.ends
    rw [tokens_statementOf blanks isWord fun c first => .inl (atTail c first),
      tokens_statementOf blanks isWord fun c first => .inl (atEdited c first), edit.split_eq]

theorem colon_not_mem (edit : StatementEdit raw edited) (absent : ':' ∉ code raw) : ':' ∉ code edited := by
  intro member
  cases edit with
  | letters blanks isWord same ends =>
    have noComment := not_mem_of_blanks blanks (c := '#') (by decide)
    rw [code_append noComment, code_append isWord.noComment] at absent
    rw [code_append noComment, code_append (isWord.of_sameLetters same).noComment] at member
    have kept := fun inOther => mem_of_sameLetters same (c := ':') inOther (by decide)
    simp only [List.mem_append] at member absent
    tauto
  | operands blanks isWord edit =>
    have noComment := not_mem_of_blanks blanks (c := '#') (by decide)
    rw [code_append noComment, code_append isWord.noComment] at member absent
    have kept := edit.mem_code (c := ':') (by decide)
    simp only [List.mem_append] at member absent
    tauto

end StatementEdit

namespace LineEdit

open SourceLine

variable {raw edited : Text}

/-- An edited line says what it said before. -/
theorem scan_eq (edit : LineEdit raw edited) : scan edited = scan raw := by
  unfold scan
  cases edit with
  | start areBlanks =>
    refine congrArg (tokens <$> ·) (read_congr ?_)
    rw [code_append (not_mem_of_blanks areBlanks (by decide)), trim_blanks_append areBlanks]
  | finish areBlanks => exact congrArg (tokens <$> ·) (read_append_blanks areBlanks raw)
  | comment _ text =>
    refine congrArg (tokens <$> ·) (read_congr ?_)
    by_cases comment : '#' ∈ raw
    · rw [code_of_comment comment]
    · rw [code_append comment, code_of_no_comment comment]
      simp [code]
  | @colon before blanks blanksToo noColon noComment areBlanks areBlanksToo after =>
    have noColonToo : ':' ∉ before ++ blanks :=
      List.not_mem_append noColon (not_mem_of_blanks areBlanks (by decide))
    have noCommentToo : '#' ∉ before ++ blanks :=
      List.not_mem_append noComment (not_mem_of_blanks areBlanks (by decide))
    rw [read_of_colon noColon noComment, read_of_colon noColonToo noCommentToo, trim_append_blanks areBlanks,
      code_append (not_mem_of_blanks areBlanksToo (by decide)), trim_blanks_append areBlanksToo]
  | statement noColon edit =>
    rw [read_of_no_colon noColon, read_of_no_colon (edit.colon_not_mem noColon)]
    simp only [tokens, Functor.map, Except.map, edit.tokens_eq]
  | labelled noColon noComment edit =>
    rw [read_of_colon noColon noComment, read_of_colon noColon noComment]
    split
    · simp only [tokens, Functor.map, Except.map, edit.tokens_eq]
    · rfl

end LineEdit

end RiscAsm
