import RiscAsm.Proofs.CheckedResults
import RiscAsm.Proofs.ImageReader
import RiscAsm.Proofs.PrintedNumerals

namespace RiscAsm.Coe

open Text

theorem entries_append_cons {c : Char} (cut : c = ',' ∨ isBlank c) (before after : Text) :
    entries (before ++ c :: after) = entries before ++ entries after := by
  unfold entries
  rw [List.splitOnP_append_cons before after (by simpa using cut), List.filter_append]

theorem entries_nil : entries [] = [] := by
  simp [entries, List.splitOnP_nil]

/-- A text that no separator divides is one entry. -/
theorem entries_of_solid {token : Text} (nonempty : token ≠ []) (solid : ∀ c ∈ token, c ≠ ',' ∧ ¬ isBlank c) :
    entries token = [token] := by
  have whole : ∀ c ∈ token, (c == ',' || isBlank c) = false := by
    intro c member
    obtain ⟨noComma, noBlank⟩ := solid c member
    simp [noBlank, noComma]
  unfold entries
  rw [List.splitOnP_eq_singleton whole]
  simp [nonempty]

theorem entries_of_plain {token : Text} (plain : Plain token) : entries token = [token] := by
  refine entries_of_solid plain.1 fun c member => ?_
  obtain ⟨noBlank, noComma, _⟩ := isPlain_iff.mp (plain.2 c member)
  exact ⟨noComma, noBlank⟩

/-- The text that the lines of a rendered vector are joined to. -/
def joined (words : List Word) : Text := [','].intercalate (words.map fun word => Numeral.hex8 word.toNat)

theorem joined_cons_cons (word next : Word) (rest : List Word) :
    joined (word :: next :: rest) = Numeral.hex8 word.toNat ++ ',' :: joined (next :: rest) := by
  simp [joined, List.intercalate_cons_cons]

theorem entries_joined (words : List Word) :
    entries (joined words) = words.map fun word => Numeral.hex8 word.toNat := by
  induction words with
  | nil => exact entries_nil
  | cons word rest ih =>
    cases rest with
    | nil => simpa [joined] using entries_of_plain (Numeral.plain_hex8 word.toNat)
    | cons next others =>
      rw [joined_cons_cons, entries_append_cons (Or.inl rfl), entries_of_plain (Numeral.plain_hex8 word.toNat), ih]
      rfl

theorem renderVector_cons_cons (word next : Word) (rest : List Word) :
    renderVector (word :: next :: rest) = Numeral.hex8 word.toNat ++ [','] ++ '\n' :: renderVector (next :: rest) := by
  simp [renderVector, List.intercalate_cons_cons]

theorem word_line (word : Word) {c : Char} (mark : c = ',' ∨ c = ';') :
    '\n' ∉ Numeral.hex8 word.toNat ++ [c] ∧ trim (dropReturn (Numeral.hex8 word.toNat ++ [c])) =
      Numeral.hex8 word.toNat ++ [c] := by
  have solid : ∀ d ∈ Numeral.hex8 word.toNat ++ [c], ¬ isBlank d := by
    intro d member
    rcases List.mem_append.mp member with inWord | last
    · exact (isPlain_iff.mp ((Numeral.plain_hex8 word.toNat).2 d inWord)).1
    · rw [List.mem_singleton.mp last]
      rcases mark with rfl | rfl <;> decide
  have trimmed := trimmed_of_no_blank solid
  rw [dropReturn_of_trimmed trimmed]
  exact ⟨fun member => solid '\n' member (by decide), trimmed⟩

/-- A rendered vector is taken up to its semicolon, and nothing after that line. -/
theorem run_renderVector {text : Text} (words : List Word) (noEnd : ';' ∉ text) (tail : Text) :
    Reader.run (.vector text) (lines (renderVector words ++ tail)) = .ok (text ++ joined words, lines tail) := by
  -- Each word is added to what the lines before it have given, so the induction is for any such text.
  induction words generalizing text with
  | nil =>
    have last : trim (dropReturn [';']) = [';'] := by decide
    rw [show renderVector [] ++ tail = [';'] ++ '\n' :: tail from rfl, Reader.run_vector_cons (by decide) noEnd, last,
      Reader.run_of_complete (Reader.complete?_of_semicolon noEnd [])]
    simp [joined]
  | cons word rest ih =>
    have noEndToo : ';' ∉ text ++ Numeral.hex8 word.toNat := by
      simp [noEnd, Numeral.not_mem_hex8 (show ∀ d < 16, ';' ≠ Nat.digitChar d by decide)]
    cases rest with
    | nil =>
      obtain ⟨noFeed, same⟩ := word_line word (Or.inr rfl)
      have whole : renderVector [word] ++ tail = Numeral.hex8 word.toNat ++ [';'] ++ '\n' :: tail := by
        simp [renderVector]
      rw [whole, Reader.run_vector_cons noFeed noEnd, same, ← List.append_assoc,
        Reader.run_of_complete (Reader.complete?_of_semicolon noEndToo [])]
      simp [joined]
    | cons next others =>
      obtain ⟨noFeed, same⟩ := word_line word (Or.inl rfl)
      have whole : renderVector (word :: next :: others) ++ tail =
          Numeral.hex8 word.toNat ++ [','] ++ '\n' :: (renderVector (next :: others) ++ tail) := by
        simp [renderVector_cons_cons]
      rw [whole, Reader.run_vector_cons noFeed noEnd, same, ih (by simpa using noEndToo), joined_cons_cons]
      simp

theorem mapM_readWord (words : List Word) (start : Nat) :
    ((words.map fun word => Numeral.hex8 word.toNat).zipIdx start).mapM readWord = .ok words := by
  rw [mapM_eq_ok_iff]
  induction words generalizing start with
  | nil => exact .nil
  | cons word rest ih =>
    refine .cons ?_ (ih (start + 1))
    have bound := word.isLt
    simp [readWord, Numeral.word?_hex8 (n := word.toNat) (by omega)]

theorem read_semicolon (s : Text) : HeaderLine.read (';' :: s) = .blankOrComment := by
  unfold HeaderLine.read
  simp [trim_cons (show ¬ isBlank ';' by decide)]

theorem read_comment (comment : Text) : HeaderLine.read (dropReturn (';' :: ' ' :: comment)) = .blankOrComment := by
  unfold dropReturn
  split
  · exact read_semicolon _
  · exact read_semicolon _

theorem findVector_comment {comment : Text} (oneLine : '\n' ∉ comment) (rest : Text) :
    findVector false (lines (';' :: ' ' :: comment ++ '\n' :: rest)) = findVector false (lines rest) := by
  have noFeed : '\n' ∉ ';' :: ' ' :: comment := by simp [oneLine]
  rw [lines_append_feed noFeed]
  simp [findVector, read_comment]

/-- The header of a rendered image leads to the lines of its vector. -/
theorem findVector_header (rest : Text) :
    findVector false (lines (Text.ofLines [radixKey ++ "16;".toList, vectorKey] ++ rest)) = .ok ([], lines rest) := by
  have whole : Text.ofLines [radixKey ++ "16;".toList, vectorKey] ++ rest =
      (radixKey ++ "16;".toList) ++ '\n' :: (vectorKey ++ '\n' :: rest) := by
    simp [Text.ofLines]
  have radix : HeaderLine.read (dropReturn (radixKey ++ "16;".toList)) = .radix "16".toList := by decide +kernel
  have vector : HeaderLine.read (dropReturn vectorKey) = .vector [] := by decide +kernel
  rw [whole, lines_append_feed (by decide), lines_append_feed (by decide)]
  simp only [findVector, radix, vector, if_true]

/-- The vector of a rendered image starts after its header, whatever the comment says. -/
theorem findVector_render (words : List Word) {comment : Option Text} (oneLine : ∀ c ∈ comment, '\n' ∉ c)
    (tail : Text) :
    findVector false (lines (render words comment ++ tail)) = .ok ([], lines (renderVector words ++ tail)) := by
  rw [← findVector_header]
  cases comment with
  | none => simp [render]
  | some c =>
    have skipped := findVector_comment (oneLine c rfl)
      (Text.ofLines [radixKey ++ "16;".toList, vectorKey] ++ (renderVector words ++ tail))
    simpa [render, Text.ofLines] using skipped

/-- What is read from a rendered image are its words, and the lines after it are left. -/
theorem readLines_render_append (words : List Word) {comment : Option Text} (oneLine : ∀ c ∈ comment, '\n' ∉ c)
    (tail : Text) : readLines (lines (render words comment ++ tail)) = .ok (words, lines tail) := by
  unfold readLines
  rw [Reader.run_header, findVector_render words oneLine tail]
  simp [run_renderVector, entries_joined, mapM_readWord]

/-- A rendered image is read back as its words, whatever comes after it. -/
theorem parse_render_append (words : List Word) {comment : Option Text} (oneLine : ∀ c ∈ comment, '\n' ∉ c)
    (tail : Text) :
    parse (render words comment ++ tail) = .ok words := by
  rw [parse_eq_readLines, readLines_render_append words oneLine tail]
  rfl

/-- Images carry words without loss: every list of words is read back from its image in the same order, whatever the
comment says and whatever follows. Reading stops at the line with the semicolon, and the lines after it stay unread. -/
theorem carries_words (words : List Word) {comment : Option Text} (oneLine : ∀ c ∈ comment, '\n' ∉ c) (tail : Text) :
    parse (render words comment ++ tail) = .ok words ∧
      readLines (lines (render words comment ++ tail)) = .ok (words, lines tail) :=
  ⟨parse_render_append words oneLine tail, readLines_render_append words oneLine tail⟩

/-- A second vector after the image is not read, although it is well-formed. -/
theorem carries_words_once :
    parse (render [0x20080005#32, 0#32] (some "MIPS; 16".toList) ++ "1,\n2;\n".toList) =
        .ok [0x20080005#32, 0#32] ∧
      readLines (lines (render [0x20080005#32, 0#32] (some "MIPS; 16".toList) ++ "1,\n2;\n".toList)) =
        .ok ([0x20080005#32, 0#32], ["1,".toList, "2;".toList]) :=
  carries_words [0x20080005#32, 0#32] (by decide) "1,\n2;\n".toList

end RiscAsm.Coe
