import Mathlib
import RiscAsm.Text

namespace RiscAsm.Text

def Trimmed (s : Text) : Prop := trim s = s

theorem trimEnd_eq_rdropWhile (s : Text) : trimEnd s = s.rdropWhile isBlank := rfl

theorem trimStart_cons_blank {c : Char} (blank : isBlank c) (s : Text) : trimStart (c :: s) = trimStart s :=
  List.dropWhile_cons_of_pos blank

theorem trim_cons_blank {c : Char} (blank : isBlank c) (s : Text) : trim (c :: s) = trim s := by
  unfold trim
  rw [trimStart_cons_blank blank]

theorem trimStart_cons {c : Char} (solid : ¬ isBlank c) (s : Text) : trimStart (c :: s) = c :: s :=
  List.dropWhile_cons_of_neg solid

theorem trim_cons {c : Char} (solid : ¬ isBlank c) (s : Text) : trim (c :: s) = c :: trimEnd s := by
  unfold trim
  rw [trimStart_cons solid]
  unfold trimEnd
  rw [List.reverse_cons, List.dropWhile_append]
  cases left : List.dropWhile isBlank s.reverse with
  | nil => simp [solid]
  | cons d rest => simp

/-- Only the two end characters decide whether a text is trimmed. -/
theorem trimmed_iff {s : Text} :
    Trimmed s ↔ (∀ c ∈ s.head?, ¬ isBlank c) ∧ ∀ c ∈ s.getLast?, ¬ isBlank c := by
  constructor
  · intro trimmed
    have atEnd : ∀ c ∈ s.getLast?, ¬ isBlank c := by
      intro c last
      obtain ⟨nonempty, rfl⟩ := List.mem_getLast?_eq_getLast last
      have same : s = (trimStart s).rdropWhile isBlank := trimmed.symm
      have solid := List.rdropWhile_last_not isBlank (trimStart s) (by rwa [← same])
      simpa only [← same] using solid
    refine ⟨?_, atEnd⟩
    intro c first blank
    cases s with
    | nil => simp at first
    | cons d rest =>
      cases Option.mem_some_iff.mp first
      -- Trimming would take the first character away.
      have shorter : (trim (c :: rest)).length ≤ rest.length := by
        rw [trim_cons_blank blank]
        exact (List.rdropWhile_prefix isBlank _).length_le.trans (List.dropWhile_suffix isBlank).length_le
      rw [trimmed] at shorter
      simp at shorter
  · rintro ⟨atStart, atEnd⟩
    cases s with
    | nil => rfl
    | cons c rest =>
      have start := trimStart_cons (atStart c rfl) rest
      unfold Trimmed trim
      rw [start, trimEnd_eq_rdropWhile, List.rdropWhile_eq_self_iff]
      intro nonempty
      exact atEnd _ (List.getLast?_eq_some_getLast nonempty)

theorem trimStart_head {s : Text} {c : Char} (first : c ∈ (trimStart s).head?) : ¬ isBlank c := by
  have solid := List.head?_dropWhile_not isBlank s
  rw [show (List.dropWhile isBlank s).head? = some c from first] at solid
  simpa using solid

theorem trimEnd_last {s : Text} {c : Char} (last : c ∈ (trimEnd s).getLast?) : ¬ isBlank c := by
  obtain ⟨nonempty, rfl⟩ := List.mem_getLast?_eq_getLast last
  exact List.rdropWhile_last_not isBlank s nonempty

/-- What is left after the first blanks does not start with a blank, nor does any start of it. -/
theorem trim_head {s : Text} {c : Char} (first : c ∈ (trim s).head?) : ¬ isBlank c := by
  obtain ⟨tail, whole⟩ : trim s <+: trimStart s := List.rdropWhile_prefix isBlank _
  refine trimStart_head (s := s) ?_
  rw [← whole, List.head?_append, Option.mem_def.mp first, Option.some_or]
  rfl

theorem trimmed_trim (s : Text) : Trimmed (trim s) :=
  trimmed_iff.mpr ⟨fun _ first => trim_head first, fun _ last => trimEnd_last (s := trimStart s) last⟩

theorem trimmed_of_no_blank {s : Text} (solid : ∀ c ∈ s, ¬ isBlank c) : Trimmed s :=
  trimmed_iff.mpr ⟨fun c first => solid c (List.mem_of_mem_head? first),
    fun c last => solid c (List.mem_of_mem_getLast? last)⟩

theorem trim_subset {s : Text} {c : Char} (member : c ∈ trim s) : c ∈ s :=
  (List.dropWhile_suffix isBlank).subset ((List.rdropWhile_prefix isBlank _).subset member)

/-- Two trimmed texts may be joined by anything if neither is empty. -/
theorem Trimmed.append_append {a b : Text} (left : Trimmed a) (right : Trimmed b) (someLeft : a ≠ [])
    (someRight : b ≠ []) (middle : Text) : Trimmed (a ++ middle ++ b) := by
  rw [trimmed_iff] at left right ⊢
  refine ⟨?_, ?_⟩
  · intro c first
    rw [List.append_assoc, List.head?_append_of_ne_nil _ someLeft] at first
    exact left.1 c first
  · intro c last
    rw [List.getLast?_append_of_ne_nil _ someRight] at last
    exact right.2 c last

theorem cutAt_append {p : Char → Bool} {before after : Text} {c : Char} (absent : ∀ d ∈ before, ¬ p d)
    (found : p c) : cutAt p (before ++ c :: after) = some (before, after) := by
  have skip : ∀ d ∈ before, (fun d => !p d) d = true := by
    intro d member
    simpa using absent d member
  unfold cutAt
  rw [List.dropWhile_append_of_pos skip, List.takeWhile_append_of_pos skip]
  simp [found]

theorem lines_append_feed {line : Text} (whole : '\n' ∉ line) (rest : Text) :
    lines (line ++ '\n' :: rest) = dropReturn line :: lines rest := by
  have pieces := List.splitOn_append_cons_self_of_not_mem whole rest
  have more := List.splitOn_ne_nil '\n' rest
  unfold lines
  rw [pieces]
  simp [List.dropLast_cons_of_ne_nil more, List.getLast?_cons_of_ne_nil more]

theorem lines_of_no_feed {line : Text} (whole : '\n' ∉ line) (nonempty : line ≠ []) : lines line = [line] := by
  unfold lines
  rw [List.splitOn_eq_singleton whole]
  simp [Option.filter, nonempty]

theorem mem_intercalate {separator : Text} {pieces : List Text} {c : Char} (member : c ∈ separator.intercalate pieces) :
    (∃ piece ∈ pieces, c ∈ piece) ∨ c ∈ separator := by
  induction pieces with
  | nil => cases member
  | cons piece rest ih =>
    cases rest with
    | nil => exact Or.inl ⟨piece, List.mem_cons_self, by simpa using member⟩
    | cons next others =>
      rw [List.intercalate_cons_cons, List.mem_append, List.mem_append] at member
      rcases member with (inFirst | between) | later
      · exact Or.inl ⟨piece, List.mem_cons_self, inFirst⟩
      · exact Or.inr between
      · rcases ih later with ⟨other, inRest, inOther⟩ | between
        · exact Or.inl ⟨other, List.mem_cons_of_mem _ inRest, inOther⟩
        · exact Or.inr between

theorem dropReturn_of_trimmed {line : Text} (trimmed : Trimmed line) : dropReturn line = line := by
  unfold dropReturn
  split
  · rename_i last
    exact absurd (by decide) ((trimmed_iff.mp trimmed).2 '\r' last)
  · rfl

/-- A piece of a text holds only characters of the text, without the one that divides the pieces. -/
theorem mem_and_ne_of_mem_splitOn {c d : Char} {s piece : Text} (member : piece ∈ s.splitOn c) (inPiece : d ∈ piece) :
    d ∈ s ∧ d ≠ c := by
  induction s generalizing piece with
  | nil => simp_all
  | cons first rest ih =>
    rw [List.splitOn_cons_eq_if_modifyHead] at member
    split at member
    · rcases List.mem_cons.mp member with rfl | later
      · cases inPiece
      · exact (ih later inPiece).imp_left (List.mem_cons_of_mem _)
    · rename_i other
      cases pieces : rest.splitOn c with
      | nil => exact absurd pieces (List.splitOn_ne_nil c rest)
      | cons head more =>
        rw [pieces, List.modifyHead_cons] at member
        rcases List.mem_cons.mp member with rfl | later
        · rcases List.mem_cons.mp inPiece with rfl | inHead
          · exact ⟨List.mem_cons_self, by simpa using other⟩
          · exact (ih (pieces ▸ List.mem_cons_self) inHead).imp_left (List.mem_cons_of_mem _)
        · exact (ih (pieces ▸ List.mem_cons_of_mem _ later) inPiece).imp_left (List.mem_cons_of_mem _)

/-- A line of a text holds only characters of the text, and no line feed. -/
theorem mem_and_ne_of_mem_lines {s line : Text} (member : line ∈ lines s) {c : Char} (inLine : c ∈ line) :
    c ∈ s ∧ c ≠ '\n' := by
  rcases List.mem_append.mp member with ended | last
  · obtain ⟨piece, inPieces, rfl⟩ := List.mem_map.mp ended
    have inPiece : c ∈ piece := by
      unfold dropReturn at inLine
      split at inLine
      · exact (List.dropLast_sublist _).subset inLine
      · exact inLine
    exact mem_and_ne_of_mem_splitOn ((List.dropLast_sublist _).subset inPieces) inPiece
  · have inPieces := (Option.mem_filter_iff.mp (Option.mem_toList.mp last)).1
    exact mem_and_ne_of_mem_splitOn (List.mem_of_mem_getLast? inPieces) inLine

/-- A text that a line can hold, so that it is read back when it stands on a line of its own. -/
def IsLine (line : Text) : Prop := '\n' ∉ line ∧ dropReturn line = line

theorem isLine_of_trimmed {line : Text} (trimmed : Trimmed line) (oneLine : '\n' ∉ line) : IsLine line :=
  ⟨oneLine, dropReturn_of_trimmed trimmed⟩

theorem lines_ofLines {ls : List Text} (areLines : ∀ line ∈ ls, IsLine line) : lines (ofLines ls) = ls := by
  induction ls with
  | nil => rfl
  | cons line rest ih =>
    obtain ⟨noFeed, same⟩ := areLines line List.mem_cons_self
    have whole : ofLines (line :: rest) = line ++ '\n' :: ofLines rest := by simp [ofLines]
    rw [whole, lines_append_feed noFeed, same, ih fun other member => areLines other (List.mem_cons_of_mem _ member)]

/-- Nonempty lines are read back from their concatenation also if no line feed comes after the last. -/
theorem lines_intercalate {ls : List Text} (areLines : ∀ line ∈ ls, line ≠ [] ∧ IsLine line) :
    lines (['\n'].intercalate ls) = ls := by
  induction ls with
  | nil => rfl
  | cons line rest ih =>
    obtain ⟨nonempty, noFeed, same⟩ := areLines line List.mem_cons_self
    have later := ih (fun other member => areLines other (List.mem_cons_of_mem _ member))
    cases rest with
    | nil => simpa using lines_of_no_feed noFeed nonempty
    | cons next others =>
      rw [List.intercalate_cons_cons, List.append_assoc, List.singleton_append, lines_append_feed noFeed, later, same]

end RiscAsm.Text
