import RiscAsm.Proofs.NumberedLines
import RiscAsm.Proofs.SourceText

namespace RiscAsm

namespace Text

/-- The last piece of a text is a line as it stands, unless it is empty. -/
theorem lines_of_splitOn {s last : Text} {init : List Text} (pieces : s.splitOn '\n' = init ++ [last]) :
    lines s = init.map dropReturn ++ (if last.isEmpty then [] else [last]) := by
  unfold lines
  rw [pieces]
  cases last <;> simp [Option.filter]

theorem lines_append_feed_append (first second : Text) :
    lines (first ++ '\n' :: second) = (first.splitOn '\n').map dropReturn ++ lines second := by
  have more := List.splitOn_ne_nil '\n' second
  simp only [lines, List.splitOn_append_cons_self, List.dropLast_append_of_ne_nil more, List.map_append,
    List.getLast?_append_of_ne_nil _ more, List.append_assoc]

end Text

open Text

/-- Instructions that differ in nothing but their lines. -/
def Instr.Alike (a b : Instr) : Prop := ∃ line, b = a.onLine line

namespace LineEffect

variable {arch : Arch}

theorem ofLine_dropReturn (arch : Arch) (line : Nat) (raw : Text) :
    ofLine arch line (dropReturn raw) = ofLine arch line raw := by
  unfold ofLine
  rw [SourceLine.read_dropReturn, trim_dropReturn]

theorem ofLines_append (arch : Arch) (start : Nat) (raws others : List Text) :
    ofLines arch start (raws ++ others) = ofLines arch start raws ++ ofLines arch (start + raws.length) others := by
  simp only [ofLines, List.zipIdx_append, List.map_append]

theorem ofLines_map_dropReturn (arch : Arch) (start : Nat) (raws : List Text) :
    ofLines arch start (raws.map dropReturn) = ofLines arch start raws := by
  simp [ofLines, List.zipIdx_map, ofLine_dropReturn]

/-- What a line without label and statement adds. -/
def nothing : LineEffect := ⟨none, .ok []⟩

/-- The effects of a source before a line feed. A last line that is empty now counts, but adds nothing. -/
theorem ofLines_splitOn (arch : Arch) (source : Text) :
    ofLines arch 1 (source.splitOn '\n') = ofSource arch source ∨
      ofLines arch 1 (source.splitOn '\n') = ofSource arch source ++ [nothing] := by
  obtain none | ⟨init, last, pieces⟩ := List.eq_nil_or_concat (source.splitOn '\n')
  · exact absurd none (List.splitOn_ne_nil '\n' source)
  · rw [List.concat_eq_append] at pieces
    rw [pieces, ofSource, lines_of_splitOn pieces, ofLines_append, ofLines_append, ofLines_map_dropReturn,
      List.length_map]
    cases last with
    | nil => exact Or.inr (by rw [List.append_assoc]; rfl)
    | cons c rest => exact Or.inl rfl

/-- Two sources joined by a line feed have their effects one after another, those of the second on later lines. -/
theorem ofSource_joined (arch : Arch) (first second : Text) :
    ∃ between, (between = [] ∨ between = [nothing]) ∧ ofSource arch (first ++ '\n' :: second) =
      ofSource arch first ++ between ++ ofLines arch (1 + (first.splitOn '\n').length) (lines second) := by
  rw [ofSource, lines_append_feed_append, ofLines_append, ofLines_map_dropReturn, List.length_map]
  rcases ofLines_splitOn arch first with same | more
  · exact ⟨[], Or.inl rfl, by rw [same, List.append_nil]⟩
  · exact ⟨[nothing], Or.inr rfl, by rw [more]⟩

theorem accepted_ofLines {start : Nat} {raws : List Text} (other : Nat)
    (accepted : ∀ effect ∈ ofLines arch start raws, effect.Accepted) :
    ∀ effect ∈ ofLines arch other raws, effect.Accepted := by
  induction raws generalizing start other with
  | nil => simp [ofLines]
  | cons raw raws ih =>
    rw [ofLines_cons, List.forall_mem_cons] at accepted ⊢
    exact ⟨by rw [ofLine_eq_onLine arch other start, accepted_onLine]; exact accepted.1, ih _ accepted.2⟩

theorem alike_emitted_ofLines (arch : Arch) (start other : Nat) (raws : List Text) :
    List.Forall₂ Instr.Alike ((ofLines arch start raws).flatMap emitted)
      ((ofLines arch other raws).flatMap emitted) := by
  induction raws generalizing start other with
  | nil => exact .nil
  | cons raw raws ih =>
    rw [ofLines_cons, ofLines_cons, List.flatMap_cons, List.flatMap_cons, ofLine_eq_onLine arch other start,
      emitted_onLine]
    refine List.rel_append ?_ (ih _ _)
    exact List.forall₂_map_right_iff.mpr (List.forall₂_same.mpr fun i _ => ⟨other, rfl⟩)

end LineEffect

namespace LabelDef

/-- The same definition, after some more instructions and lines. -/
def moved (count lines : Nat) (d : LabelDef) : LabelDef := ⟨d.name, d.index + count, d.line + lines⟩

theorem ofEffects_append (index line : Nat) (effects others : List LineEffect) :
    ofEffects index line (effects ++ others) = ofEffects index line effects ++
      ofEffects (index + (effects.map LineEffect.size).sum) (line + effects.length) others := by
  induction effects generalizing index line with
  | nil => rfl
  | cons effect effects ih =>
    simp [ofEffects, ih, Nat.add_assoc, Nat.add_comm 1]

/-- The labels of lines do not depend on the numbers that the lines had when they were read. -/
theorem ofEffects_ofLines (arch : Arch) (start other index line : Nat) (raws : List Text) :
    ofEffects index line (LineEffect.ofLines arch start raws) =
      ofEffects index line (LineEffect.ofLines arch other raws) := by
  induction raws generalizing start other index line with
  | nil => rfl
  | cons raw raws ih =>
    simp only [LineEffect.ofLines_cons, ofEffects, ih (start + 1) (other + 1)]
    rw [LineEffect.ofLine_eq_onLine arch start other, LineEffect.size_onLine]
    rfl

theorem ofEffects_moved (index line count lines : Nat) (effects : List LineEffect) :
    ofEffects (index + count) (line + lines) effects = (ofEffects index line effects).map (moved count lines) := by
  induction effects generalizing index line with
  | nil => rfl
  | cons effect effects ih =>
    rw [ofEffects, ofEffects, List.map_append, ← ih, Nat.add_right_comm index, Nat.add_right_comm line]
    cases effect.label <;> rfl

end LabelDef

namespace LineEffect

variable {arch : Arch} {first second : Text}

theorem accepted_joined (ofFirst : ∀ effect ∈ ofSource arch first, effect.Accepted)
    (ofSecond : ∀ effect ∈ ofSource arch second, effect.Accepted) :
    ∀ effect ∈ ofSource arch (first ++ '\n' :: second), effect.Accepted := by
  obtain ⟨between, nothings, joined⟩ := ofSource_joined arch first second
  rw [joined]
  simp only [List.forall_mem_append]
  refine ⟨⟨ofFirst, ?_⟩, accepted_ofLines _ ofSecond⟩
  rcases nothings with rfl | rfl
  · simp
  · simp [nothing, Accepted]

/-- The instructions of joined sources are those of the first and, but for their lines, those of the second. -/
theorem emitted_joined (arch : Arch) (first second : Text) :
    ∃ later, (ofSource arch (first ++ '\n' :: second)).flatMap emitted =
      (ofSource arch first).flatMap emitted ++ later ∧
      List.Forall₂ Instr.Alike ((ofSource arch second).flatMap emitted) later := by
  obtain ⟨between, nothings, joined⟩ := ofSource_joined arch first second
  have noInstrs : between.flatMap emitted = [] := by rcases nothings with rfl | rfl <;> rfl
  refine ⟨_, ?_, alike_emitted_ofLines arch 1 (1 + (first.splitOn '\n').length) (lines second)⟩
  rw [joined, List.flatMap_append, List.flatMap_append, noInstrs, List.append_nil]

end LineEffect

/-- The labels of joined sources are those of the first and, after its instructions and lines, those of the second. -/
theorem LabelDef.ofEffects_joined (arch : Arch) (first second : Text) :
    ∃ lines, ofEffects 0 1 (LineEffect.ofSource arch (first ++ '\n' :: second)) =
      ofEffects 0 1 (LineEffect.ofSource arch first) ++ (ofEffects 0 1 (LineEffect.ofSource arch second)).map
        (moved ((LineEffect.ofSource arch first).flatMap LineEffect.emitted).length lines) := by
  obtain ⟨between, nothings, joined⟩ := LineEffect.ofSource_joined arch first second
  have noLabels : ∀ index line, ofEffects index line between = [] := by
    intro index line
    rcases nothings with rfl | rfl <;> rfl
  have same : ((LineEffect.ofSource arch first ++ between).map LineEffect.size).sum =
      ((LineEffect.ofSource arch first).flatMap LineEffect.emitted).length := by
    rw [LineEffect.length_flatMap_emitted, List.map_append, List.sum_append]
    rcases nothings with rfl | rfl <;> rfl
  refine ⟨(LineEffect.ofSource arch first ++ between).length, ?_⟩
  rw [joined, ofEffects_append, ofEffects_append, noLabels, List.append_nil, same, ofEffects_ofLines arch _ 1,
    ofEffects_moved]
  rfl

end RiscAsm
