import RiscAsm.Proofs.LineEdits
import RiscAsm.Proofs.ShiftedLines

namespace RiscAsm

open Text

variable {shift : Nat → Nat}

namespace SourceLine

theorem scan_dropReturn (raw : Text) : scan (dropReturn raw) = scan raw := by
  unfold scan
  rw [read_dropReturn]

/-- A source says what the pieces between its line feeds say. -/
theorem said_lines (source : Text) :
    said 1 ((lines source).map scan) = said 1 ((source.splitOn '\n').map scan) := by
  obtain none | ⟨init, last, pieces⟩ := List.eq_nil_or_concat (source.splitOn '\n')
  · exact absurd none (List.splitOn_ne_nil '\n' source)
  · rw [List.concat_eq_append] at pieces
    have same : (init.map dropReturn).map scan = init.map scan := by
      rw [List.map_map]
      exact List.map_congr_left fun raw _ => scan_dropReturn raw
    rw [lines_of_splitOn pieces, pieces, List.map_append, List.map_append, same]
    cases last with
    | cons c rest => rfl
    | nil =>
      have blanks : Blanks (code []) := nofun
      simp [said_append, said_silent blanks]

end SourceLine

/-- One edit of a source that keeps what it says, with the new number of each old line. -/
inductive SourceEdit (source edited : Text) : (Nat → Nat) → Prop
  | line {before after : List Text} {raw other : Text} (pieces : source.splitOn '\n' = before ++ raw :: after)
    (piecesToo : edited.splitOn '\n' = before ++ other :: after) (edit : LineEdit raw other) :
    SourceEdit source edited id
  | insert {before after : List Text} {raw : Text} (pieces : source.splitOn '\n' = before ++ after)
    (piecesToo : edited.splitOn '\n' = before ++ raw :: after) (silent : Blanks (SourceLine.code raw)) :
    SourceEdit source edited fun n => if n ≤ before.length then n else n + 1

/-- Any number of edits, one after another. -/
inductive SourceEdits (source : Text) : Text → (Nat → Nat) → Prop
  | none : SourceEdits source source id
  | more {middle edited : Text} {shift move : Nat → Nat} (edits : SourceEdits source middle shift)
    (edit : SourceEdit middle edited move) : SourceEdits source edited (move ∘ shift)

open SourceLine

variable {source edited : Text}

theorem SourceEdit.said_eq (edit : SourceEdit source edited shift) :
    said 1 ((edited.splitOn '\n').map scan) = (said 1 ((source.splitOn '\n').map scan)).map (Prod.map id shift) := by
  cases edit with
  | line pieces piecesToo edit =>
    rw [pieces, piecesToo, List.map_append, List.map_append, List.map_cons, List.map_cons, edit.scan_eq, Prod.map_id,
      List.map_id]
  | @insert before after raw pieces piecesToo silent =>
    let shift : Nat → Nat := fun n => if n ≤ before.length then n else n + 1
    have atStart : (said 1 (before.map scan)).map (Prod.map id shift) = said 1 (before.map scan) := by
      refine said_moved fun n _ inBefore => if_pos ?_
      rw [List.length_map] at inBefore
      omega
    have atEnd : said (1 + before.length + 1) (after.map scan) =
        (said (1 + before.length) (after.map scan)).map (Prod.map id shift) :=
      said_succ _ _ fun n inAfter => if_neg (by omega)
    have inserted : (before ++ raw :: after).map scan = before.map scan ++ ([scan raw] ++ after.map scan) := by simp
    rw [pieces, piecesToo, inserted, List.map_append, said_append, said_append, said_append, said_silent silent,
      List.nil_append, List.map_append, List.length_map, List.length_singleton, atEnd, atStart]

theorem SourceEdits.said_eq (edits : SourceEdits source edited shift) :
    said 1 ((edited.splitOn '\n').map scan) = (said 1 ((source.splitOn '\n').map scan)).map (Prod.map id shift) := by
  induction edits with
  | none => rw [Prod.map_id, List.map_id]
  | more _ edit ih => rw [edit.said_eq, ih, List.map_map, Prod.map_comp_map, Function.comp_id]

namespace Assembly

/-- Edits of the layout, the comments and the case of mnemonics keep the outcome of a source: the same words and the
same labels, or else the same fault on the line that the faulty line has become. -/
theorem keeps_outcome (edits : SourceEdits source edited shift) (arch : Arch) :
    Related (Diagnostic.Shifted shift) (fun a b => b.words = a.words ∧ b.labelEntries = a.labelEntries)
      (ofSource arch source) (ofSource arch edited) := by
  have same : said 1 ((lines edited).map scan) = (said 1 ((lines source).map scan)).map (Prod.map id shift) := by
    rw [said_lines, said_lines, edits.said_eq]
  exact related_of_said same arch

/-- A label that is repeated, on lines that move by one. -/
theorem keeps_outcome_repeated :
    ∃ d e, ofSource .riscv "a: add x1,x2,x3\na:".toList = .error d ∧
      ofSource .riscv "# twice\na: add x1 , x2,x3\na:".toList = .error e ∧
      d.line = 2 ∧ d.fault = .duplicateLabel "a".toList 1 ∧ e.line = 3 ∧ e.fault = .duplicateLabel "a".toList 2 := by
  have blank : Blanks [' '] := by simp [Blanks, isBlank]
  have isWord : IsWord "add".toList := ⟨by decide, by simp [isBlank], by decide⟩
  have tail : TailEdit " x1,x2,x3".toList " x1 , x2,x3".toList :=
    .comma ⟨' ', rfl, by decide⟩ (show '#' ∉ " x1".toList by decide) blank blank "x2,x3".toList
  have line : LineEdit "a: add x1,x2,x3".toList "a: add x1 , x2,x3".toList :=
    .labelled (show ':' ∉ "a".toList by decide) (by decide) (.operands blank isWord tail)
  have silent : Blanks (code "# twice".toList) := by simp [Blanks, code]
  have edits : SourceEdits "a: add x1,x2,x3\na:".toList "# twice\na: add x1 , x2,x3\na:".toList
      ((fun n => if n ≤ 0 then n else n + 1) ∘ id ∘ id) :=
    .more (.more .none (@SourceEdit.line _ "a: add x1 , x2,x3\na:".toList [] ["a:".toList] _ _ rfl rfl line))
      (@SourceEdit.insert _ _ [] _ "# twice".toList rfl rfl silent)
  have evaluated : rejection? (ofSource .riscv "a: add x1,x2,x3\na:".toList) =
      some ⟨2, "a:".toList, [], .duplicateLabel "a".toList 1⟩ := by decide +kernel
  have failed := rejection?_eq_some.mp evaluated
  have outcome := keeps_outcome edits .riscv
  rw [failed] at outcome
  generalize ofSource .riscv "# twice\na: add x1 , x2,x3\na:".toList = second at outcome ⊢
  cases outcome with
  | error shifted => exact ⟨_, _, failed, rfl, rfl, rfl, shifted.line, shifted.fault⟩

end Assembly

end RiscAsm
