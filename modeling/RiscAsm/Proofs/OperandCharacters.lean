import RiscAsm.Proofs.AssembledProgram
import RiscAsm.Proofs.FaultOrigins
import RiscAsm.Proofs.JoinedSources
import RiscAsm.Proofs.OperandForms

namespace RiscAsm

open Text

theorem Operand.colon_not_mem_of_memory {arch : Arch} {token : Text} {place : Int × Nat}
    (read : memory arch token = .ok place) : ':' ∉ token :=
  List.count_eq_zero.mp ((memory_eq_ok_iff.mp read).count_mark .colon)

theorem LabelTable.Named.colon_not_mem_of_target {labels : LabelTable} (named : labels.Named) {token : Text}
    {target : Word} (found : labels.target token = .ok target) : ':' ∉ token := by
  unfold LabelTable.target at found
  split at found
  · rename_i address known
    obtain ⟨label, ofFind, _⟩ := Option.map_eq_some_iff.mp known
    have plain := plain_of_isIdentifier (named.isIdentifier_of_find? ofFind)
    exact fun member => (isPlain_iff.mp (plain.2 ':' member)).2.2.2 rfl
  · split at found
    · rename_i value reads
      exact IsMark.colon.not_mem_of_literal? reads
    · split at found <;> cases found

variable {arch : Arch} {labels : LabelTable} {ops : List Text} {m : Meaning}

theorem Slot.colon_not_mem_of_read? (named : labels.Named) {token : Text} {slot : Slot}
    (read : slot.read? arch labels token = some m) : ':' ∉ token := by
  cases slot with
  | register =>
    obtain ⟨n, found, _⟩ := Option.map_eq_some_iff.mp read
    exact IsMark.colon.not_mem_of_register? found
  | number =>
    obtain ⟨value, found, _⟩ := Option.map_eq_some_iff.mp read
    exact IsMark.colon.not_mem_of_literal? found
  | memory =>
    obtain ⟨place, found, _⟩ := Option.map_eq_some_iff.mp read
    exact Operand.colon_not_mem_of_memory (toOption_eq_some.mp found)
  | target =>
    obtain ⟨address, found, _⟩ := Option.map_eq_some_iff.mp read
    exact named.colon_not_mem_of_target (toOption_eq_some.mp found)

theorem Meaning.colon_not_mem_of_read? (named : labels.Named) {slots : List Slot}
    (read : Meaning.read? arch labels slots ops = some m) : ∀ token ∈ ops, ':' ∉ token := by
  induction slots generalizing ops m with
  | nil => simp [(read?_nil_eq_some.mp read).1]
  | cons slot slots ih =>
    obtain ⟨token, more, rfl, first, ofFirst, rest, ofRest, _⟩ := read?_cons_eq_some.mp read
    exact List.forall_mem_cons.mpr ⟨Slot.colon_not_mem_of_read? named ofFirst, ih ofRest⟩

theorem Mips.Format.colon_not_mem_of_read? (named : labels.Named) {format : Mips.Format}
    (read : format.read? labels ops = some m) : ∀ token ∈ ops, ':' ∉ token := by
  unfold read? at read
  split at read
  · cases read
  · obtain ⟨linked, ofLinked, _⟩ := Option.map_eq_some_iff.mp read
    exact Meaning.colon_not_mem_of_read? named ofLinked
  · exact Meaning.colon_not_mem_of_read? named read

theorem RiscV.Format.colon_not_mem_of_read? (named : labels.Named) {format : RiscV.Format}
    (read : format.read? labels ops = some m) : ∀ token ∈ ops, ':' ∉ token := by
  unfold read? at read
  split at read
  · cases read
  · obtain ⟨plain, ofPlain, _⟩ := Option.map_eq_some_iff.mp read
    exact Meaning.colon_not_mem_of_read? named ofPlain
  · split at read
    · exact Meaning.colon_not_mem_of_read? named read
    · obtain ⟨plain, ofPlain, _⟩ := Option.map_eq_some_iff.mp read
      exact Meaning.colon_not_mem_of_read? named ofPlain
  · exact Meaning.colon_not_mem_of_read? named read
  · obtain ⟨plain, ofPlain, _⟩ := Option.map_eq_some_iff.mp read
    exact Meaning.colon_not_mem_of_read? named ofPlain
  · exact Meaning.colon_not_mem_of_read? named read

/-- Operands that denote something hold no colon. -/
theorem Format.colon_not_mem_of_read? (named : labels.Named) {format : Format}
    (read : format.read? labels ops = some m) : ∀ token ∈ ops, ':' ∉ token := by
  cases format with
  | mips f => exact Mips.Format.colon_not_mem_of_read? named read
  | riscv f => exact RiscV.Format.colon_not_mem_of_read? named read

/-- A character of an operand text stands in an operand, or else it is a comma or a blank. -/
theorem Operand.mem_split {text : Text} {c : Char} (member : c ∈ text) :
    c = ',' ∨ isBlank c ∨ ∃ token ∈ split text, c ∈ token := by
  have whole : [','].intercalate (text.splitOn ',') = text := List.intercalate_splitOn ','
  rw [← whole] at member
  rcases mem_intercalate member with ⟨piece, inText, inPiece⟩ | comma
  · by_cases blank : isBlank c
    · exact .inr (.inl blank)
    · have inTrimmed := mem_trim inPiece blank
      refine .inr (.inr ⟨trim piece, List.mem_filter.mpr ⟨List.mem_map_of_mem inText, ?_⟩, inTrimmed⟩)
      simpa using List.ne_nil_of_mem inTrimmed
  · exact .inl (List.mem_singleton.mp comma)

/-- Operands as they stand on one line, after blanks and before a comment. -/
structure OnLine (operands : Text) : Prop where
  trimmed : Trimmed operands
  inside : ∀ c ∈ operands, c ≠ '#' ∧ c ≠ '\n'

namespace SourceLine

theorem operands_of_statementOf {text : Text} {s : Statement} (found : statementOf text = some s) :
    Trimmed s.operands ∧ ∀ c ∈ s.operands, c ∈ text := by
  unfold statementOf at found
  split at found
  · cases found
  · split at found
    · rename_i mnemonic operands cut
      cases found
      obtain ⟨_, _, _, whole⟩ := cutAt_eq_some cut
      refine ⟨trimmed_trim operands, fun c member => ?_⟩
      rw [whole]
      exact List.mem_append_right _ (List.mem_cons_of_mem _ (trim_subset member))
    · cases found
      exact ⟨rfl, nofun⟩

theorem onLine_of_read {raw : Text} {label : Option Text} {s : Statement} (oneLine : '\n' ∉ raw)
    (read : read raw = .ok ⟨label, some s⟩) : OnLine s.operands := by
  have inside : ∀ c ∈ trim (code raw), c ≠ '#' ∧ c ≠ '\n' := by
    intro c member
    have inCode := trim_subset member
    refine ⟨by simpa using List.mem_takeWhile_imp inCode, ?_⟩
    rintro rfl
    exact oneLine ((List.takeWhile_prefix _).subset inCode)
  unfold SourceLine.read at read
  dsimp only at read
  split at read
  · obtain ⟨_, found⟩ := SourceLine.mk.inj (Except.ok.inj read)
    obtain ⟨trimmed, kept⟩ := operands_of_statementOf found
    exact ⟨trimmed, fun c member => inside c (kept c member)⟩
  · rename_i name rest cut
    split at read
    · obtain ⟨_, found⟩ := SourceLine.mk.inj (Except.ok.inj read)
      obtain ⟨trimmed, kept⟩ := operands_of_statementOf found
      obtain ⟨_, _, _, whole⟩ := cutAt_eq_some cut
      refine ⟨trimmed, fun c member => inside c ?_⟩
      rw [whole]
      exact List.mem_append_right _ (List.mem_cons_of_mem _ (trim_subset (kept c member)))
    · cases read

end SourceLine

/-- What a pseudo instruction stands for can be written on a line like the pseudo instruction itself. -/
theorem Pseudo.Emits.onLine {arch : Arch} {text : Text} {s : Statement} (emits : Emits arch (Operand.split text) s)
    (onLine : OnLine text) : OnLine s.operands := by
  obtain ⟨_, tokens, same, written⟩ := emits
  rw [same]
  constructor
  case trimmed =>
    exact trimmed_printed fun token member =>
      (written token member).elim Operand.isToken_of_mem_split Operand.isToken_of_plain
  case inside =>
    intro c member
    rcases mem_printed member with ⟨token, inTokens, inToken⟩ | rfl | rfl
    · rcases written token inTokens with inText | plain
      · exact onLine.inside c (Operand.mem_of_mem_split inText inToken)
      · obtain ⟨solid, _, noComment, _⟩ := isPlain_iff.mp (plain.2 c inToken)
        exact ⟨noComment, by rintro rfl; exact solid (by decide)⟩
    · decide
    · decide

theorem LineEffect.onLine_of_mem_emitted {arch : Arch} {line : Nat} {raw : Text} {i : Instr} (oneLine : '\n' ∉ raw)
    (member : i ∈ (ofLine arch line raw).emitted) : OnLine i.operands := by
  obtain ⟨label, s, instrs, read, expanded, inInstrs⟩ := expand_of_mem_emitted member
  have onLine := SourceLine.onLine_of_read oneLine read
  obtain ⟨t, origin, made, own⟩ := Statement.instr_of_mem_expand expanded inInstrs
  obtain ⟨format, _, rfl⟩ := Statement.instr_eq_ok_iff.mp made
  rcases own with rfl | ⟨pseudo, statements, rewritten, inStatements⟩
  · exact onLine
  · exact ((Pseudo.standsFor_of_rewrite rewritten).emits t inStatements).onLine onLine

theorem LineEffect.onLine_of_mem_ofSource {arch : Arch} {source : Text} {i : Instr}
    (member : i ∈ (LineEffect.ofSource arch source).flatMap emitted) : OnLine i.operands := by
  obtain ⟨effect, inSource, inEffect⟩ := List.mem_flatMap.mp member
  obtain ⟨numbered, inLines, rfl⟩ := List.mem_map.mp inSource
  have noFeed : '\n' ∉ numbered.1 := fun feed =>
    (mem_and_ne_of_mem_lines (List.fst_mem_of_mem_zipIdx inLines) feed).2 rfl
  exact onLine_of_mem_emitted noFeed inEffect

/-- Every instruction of an assembled source can be written on a line of its own. -/
theorem Assembly.writable_of_mem {arch : Arch} {source : Text} {a : Assembly} (accepted : ofSource arch source = .ok a)
    {instr : PlacedInstr} (member : instr ∈ a.program.instrs) :
    Statement.Writable ⟨instr.mnemonic, instr.operands⟩ := by
  obtain ⟨i, atIndex⟩ := List.getElem?_of_mem member
  obtain ⟨listed, _, word, _, encoded⟩ := encoded_of_getElem? accepted atIndex
  obtain ⟨plain, lower, _⟩ := Arch.mnemonic_of_mem_formats listed
  obtain ⟨m, read, _⟩ := (PlacedInstr.encode_eq_ok_iff (Arch.arch_of_mem_formats listed)).mp encoded
  have tokens := Format.colon_not_mem_of_read? (named_labels accepted) read
  have noColon : ':' ∉ instr.operands := by
    intro colon
    rcases Operand.mem_split colon with comma | blank | ⟨token, inSplit, inToken⟩
    · cases comma
    · exact absurd blank (by decide)
    · exact tokens token inSplit inToken
  have onLine : OnLine instr.operands := by
    obtain ⟨e, expanded, _, _, placed, _⟩ := ofSource_eq_ok_iff.mp accepted
    obtain ⟨_, _, ofInstrs, _⟩ := Expansion.ofSource_eq_ok_iff.mp expanded
    rw [placed, Program.place_getElem?] at atIndex
    obtain ⟨base, found, rfl⟩ := Option.map_eq_some_iff.mp atIndex
    rw [ofInstrs] at found
    exact LineEffect.onLine_of_mem_ofSource (List.mem_of_getElem? found)
  refine ⟨plain, lower, onLine.trimmed, fun c inside => ?_⟩
  obtain ⟨noComment, noFeed⟩ := onLine.inside c inside
  exact ⟨noComment, by rintro rfl; exact noColon inside, noFeed⟩

end RiscAsm
