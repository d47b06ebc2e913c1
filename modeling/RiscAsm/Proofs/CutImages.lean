import RiscAsm.Proofs.RenderedImage

namespace RiscAsm

open Text

/-- A text cut off within a line is a part of that line, or else the cut comes after its line feed. -/
theorem Text.prefix_append_feed {cut line rest : Text} (inText : cut <+: line ++ '\n' :: rest) :
    cut <+: line ∨ ∃ more, cut = line ++ '\n' :: more ∧ more <+: rest := by
  rcases List.prefix_or_prefix_of_prefix inText (List.prefix_append line ('\n' :: rest)) with short | ⟨tail, rfl⟩
  · exact Or.inl short
  · rw [List.prefix_append_right_inj] at inText
    cases tail with
    | nil => exact Or.inl (by simp)
    | cons c more =>
      obtain ⟨rfl, inRest⟩ := List.cons_prefix_cons.mp inText
      exact Or.inr ⟨more, rfl, inRest⟩

namespace Coe

/-- The lines of a rendered image up to the place where its vector starts. -/
def heading (comment : Option Text) : Text :=
  Text.ofLines ((comment.map fun c => ';' :: ' ' :: c).toList ++ [radixKey ++ "16;".toList]) ++ vectorKey

variable {words : List Word} {comment : Option Text} {cut body rest : Text}

theorem render_eq_heading (words : List Word) (comment : Option Text) :
    render words comment = heading comment ++ '\n' :: renderVector words := by
  simp [render, heading, Text.ofLines]

theorem heading_some (comment : Text) : heading (some comment) = ';' :: ' ' :: comment ++ '\n' :: heading none := by
  simp [heading, Text.ofLines]

theorem findVector_heading (oneLine : ∀ c ∈ comment, '\n' ∉ c) (body : Text) :
    findVector false (lines (heading comment ++ body)) = findVector false (lines (heading none ++ body)) := by
  cases comment with
  | none => rfl
  | some c =>
    have whole : heading (some c) ++ body = ';' :: ' ' :: c ++ '\n' :: (heading none ++ body) := by simp [heading_some]
    rw [whole, findVector_comment (oneLine c rfl)]

/-- A heading without a comment that is cut off has no vector yet. -/
theorem findVector_of_cut_lines (inHeading : cut <+: heading none) (short : cut ≠ heading none) :
    ∃ fault, findVector false (lines cut) = .error fault ∧ fault ≠ .unterminated := by
  have all : (heading none).inits.all (fun cut => cut == heading none ||
      (rejection? (findVector false (lines cut))).any (· != .unterminated)) := by decide +kernel
  have checked := List.all_eq_true.mp all cut ((List.mem_inits _ _).mpr inHeading)
  simp only [Bool.or_eq_true, beq_iff_eq, short, false_or, Option.any_eq_true, bne_iff_ne] at checked
  obtain ⟨fault, rejected, other⟩ := checked
  exact ⟨fault, rejection?_eq_some.mp rejected, other⟩

theorem findVector_of_cut_comment {comment : Text} (oneLine : '\n' ∉ comment)
    (inComment : cut <+: ';' :: ' ' :: comment) : findVector false (lines cut) = .error .missingRadix := by
  cases cut with
  | nil => rfl
  | cons c more =>
    obtain ⟨rfl, _⟩ := List.cons_prefix_cons.mp inComment
    have noFeed : '\n' ∉ ';' :: more := fun member => by simpa [oneLine] using inComment.subset member
    rw [lines_of_no_feed noFeed (List.cons_ne_nil _ _)]
    simp [findVector, read_semicolon]

theorem findVector_of_cut_heading (oneLine : ∀ c ∈ comment, '\n' ∉ c) (inHeading : cut <+: heading comment)
    (short : cut ≠ heading comment) :
    ∃ fault, findVector false (lines cut) = .error fault ∧ fault ≠ .unterminated := by
  cases comment with
  | none => exact findVector_of_cut_lines inHeading short
  | some c =>
    rw [heading_some] at inHeading short
    rcases prefix_append_feed inHeading with inComment | ⟨more, rfl, inRest⟩
    · exact ⟨.missingRadix, findVector_of_cut_comment (oneLine c rfl) inComment, by decide⟩
    · rw [findVector_comment (oneLine c rfl)]
      exact findVector_of_cut_lines inRest fun same => short (by rw [same])

/-- After its heading an image goes on with the lines of its vector, of which the first may be missing. -/
theorem findVector_of_whole_heading (inVector : body <+: '\n' :: rest) :
    ∃ ls, findVector false (lines (heading none ++ body)) = .ok ([], ls) ∧ ∀ c ∈ ls.flatMap trim, c ∈ body := by
  cases body with
  | nil =>
    have found : findVector false (lines (heading none)) = .ok ([], []) := by decide +kernel
    exact ⟨[], by rw [List.append_nil, found], by simp⟩
  | cons c more =>
    obtain ⟨rfl, _⟩ := List.cons_prefix_cons.mp inVector
    have whole : heading none ++ '\n' :: more = Text.ofLines [radixKey ++ "16;".toList, vectorKey] ++ more := by
      simp [heading, Text.ofLines]
    refine ⟨lines more, by rw [whole, findVector_header], ?_⟩
    intro c member
    obtain ⟨line, inLines, inLine⟩ := List.mem_flatMap.mp member
    exact List.mem_cons_of_mem _ (mem_and_ne_of_mem_lines inLines (trim_subset inLine)).1

theorem semicolon_not_mem_words (words : List Word) :
    ';' ∉ [',', '\n'].intercalate (words.map fun word => Numeral.hex8 word.toNat) := by
  intro member
  rcases mem_intercalate member with ⟨piece, inWords, inPiece⟩ | separator
  · obtain ⟨word, _, rfl⟩ := List.mem_map.mp inWords
    exact Numeral.not_mem_hex8 (by decide) word.toNat inPiece
  · simp at separator

theorem parse_of_findVector_error {s : Text} {fault : CoeError} (failed : findVector false (lines s) = .error fault) :
    parse s = .error fault := by
  unfold parse
  rw [failed]
  rfl

theorem parse_of_no_semicolon {s start : Text} {ls : List Text} (found : findVector false (lines s) = .ok (start, ls))
    (noEnd : ';' ∉ start ++ ls.flatMap trim) : parse s = .error .unterminated := by
  have unfinished : vectorText? start ls = none := by
    rw [vectorText?, cutAt_eq_none.mpr, Option.map_none]
    rintro c member same
    exact noEnd (beq_iff_eq.mp same ▸ member)
  unfold parse
  rw [found]
  simp only [bind, Except.bind, unfinished]
  rfl

/-- An image that is cut off anywhere before the semicolon of its vector is refused, so it is never taken for the image
of fewer words. It is refused as unterminated where the cut comes after the heading, and for the heading before. -/
theorem refuses_cut (words : List Word) (oneLine : ∀ c ∈ comment, '\n' ∉ c)
    (whole : cut ++ rest ++ ";\n".toList = render words comment) :
    ∃ fault, parse cut = .error fault ∧ (fault = .unterminated ↔ heading comment <+: cut) := by
  have inImage : cut <+: heading comment ++ '\n' :: renderVector words := by
    rw [← render_eq_heading, ← whole, List.append_assoc]
    exact List.prefix_append ..
  by_cases reached : heading comment <+: cut
  · obtain ⟨body, rfl⟩ := reached
    have inVector : body ++ rest = '\n' :: [',', '\n'].intercalate (words.map fun word => Numeral.hex8 word.toNat) := by
      rw [render_eq_heading, List.append_assoc, List.append_assoc, List.append_cancel_left_eq, renderVector,
        ← List.cons_append, ← List.append_assoc] at whole
      exact List.append_cancel_right whole
    have noEnd : ';' ∉ body := fun member => by
      have inWords : ';' ∈ body ++ rest := List.mem_append_left _ member
      rw [inVector] at inWords
      simp [semicolon_not_mem_words words] at inWords
    obtain ⟨ls, found, inBody⟩ := findVector_of_whole_heading ⟨rest, inVector⟩
    rw [← findVector_heading oneLine] at found
    exact ⟨.unterminated, parse_of_no_semicolon found fun member => noEnd (inBody _ member), by simp⟩
  · have short : cut <+: heading comment :=
      (List.prefix_or_prefix_of_prefix inImage (List.prefix_append _ _)).resolve_right reached
    obtain ⟨fault, failed, other⟩ := findVector_of_cut_heading oneLine short fun same => reached (by rw [same])
    exact ⟨fault, parse_of_findVector_error failed, iff_of_false other reached⟩

/-- What is left of the second word is a word of its own, but it does not come to be read. -/
theorem refuses_cut_word :
    render [0x20080005#32, 0#32] (some "MIPS; 16".toList) =
        heading (some "MIPS; 16".toList) ++ "\n20080005,\n0000".toList ++ "0000".toList ++ ";\n".toList ∧
      ∃ fault, parse (heading (some "MIPS; 16".toList) ++ "\n20080005,\n0000".toList) = .error fault ∧
        fault = .unterminated := by
  have whole : heading (some "MIPS; 16".toList) ++ "\n20080005,\n0000".toList ++ "0000".toList ++ ";\n".toList =
      render [0x20080005#32, 0#32] (some "MIPS; 16".toList) := by decide +kernel
  obtain ⟨fault, refused, reached⟩ := refuses_cut [0x20080005#32, 0#32] (by decide) whole
  exact ⟨whole.symm, fault, refused, reached.mpr (List.prefix_append _ _)⟩

end Coe

end RiscAsm
