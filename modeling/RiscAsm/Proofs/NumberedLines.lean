import RiscAsm.Proofs.ExpandedSource

namespace RiscAsm

/-- The same instruction, from another line. -/
def Instr.onLine (line : Nat) (i : Instr) : Instr := { i with line }

namespace Statement

variable {arch : Arch}

theorem instr_onLine (line other : Nat) {origin : Option Pseudo} (s : Statement) :
    s.instr arch line origin = (s.instr arch other origin).map (Instr.onLine line) := by
  unfold instr
  cases arch.format? s.mnemonic <;> rfl

theorem mapM_instr_onLine (line other : Nat) {origin : Option Pseudo} (statements : List Statement) :
    statements.mapM (instr arch line origin) =
      (statements.mapM (instr arch other origin)).map (List.map (Instr.onLine line)) := by
  induction statements with
  | nil => rfl
  | cons s statements ih =>
    rw [List.mapM_cons, List.mapM_cons, ih, instr_onLine line other]
    cases s.instr arch other origin with
    | error fault => rfl
    | ok first => cases statements.mapM (instr arch other origin) <;> rfl

theorem expand_onLine (line other : Nat) (s : Statement) :
    s.expand arch line = (s.expand arch other).map (List.map (Instr.onLine line)) := by
  unfold expand
  cases Pseudo.ofMnemonic? arch s.mnemonic with
  | none =>
    simp only [instr_onLine line other]
    cases s.instr arch other none <;> rfl
  | some pseudo =>
    simp only [mapM_instr_onLine line other]
    cases pseudo.rewrite arch s.operands <;> rfl

end Statement

namespace LineEffect

/-- The same effect, of another line. -/
def onLine (line : Nat) (effect : LineEffect) : LineEffect where
  label := effect.label
  instrs :=
    match effect.instrs with
    | .ok instrs => .ok (instrs.map (Instr.onLine line))
    | .error diagnostic => .error { diagnostic with line }

variable {effect : LineEffect} {line other : Nat}

theorem emitted_onLine : (effect.onLine line).emitted = effect.emitted.map (Instr.onLine line) := by
  unfold emitted onLine
  cases effect.instrs <;> rfl

@[simp]
theorem size_onLine : (effect.onLine line).size = effect.size := by
  simp [size, emitted_onLine]

theorem accepted_onLine : (effect.onLine line).Accepted ↔ effect.Accepted := by
  unfold Accepted onLine
  cases effect.instrs <;> simp

/-- The number of a line is all that it does not tell itself. -/
theorem ofLine_eq_onLine (arch : Arch) (line other : Nat) (raw : Text) :
    ofLine arch line raw = (ofLine arch other raw).onLine line := by
  unfold ofLine
  split
  · rfl
  · rfl
  · rename_i label s _
    simp only [Statement.expand_onLine line other]
    cases s.expand arch other <;> rfl

theorem line_of_mem_ofLine {arch : Arch} {raw : Text} {i : Instr} (member : i ∈ (ofLine arch line raw).emitted) :
    i.line = line := by
  rw [ofLine_eq_onLine arch line line, emitted_onLine] at member
  obtain ⟨_, _, rfl⟩ := List.mem_map.mp member
  rfl

theorem ofSource_getElem? {arch : Arch} {source : Text} (k : Nat) :
    (ofSource arch source)[k]? = (Text.lines source)[k]?.map (ofLine arch (k + 1)) := by
  simp only [ofSource, ofLines, List.getElem?_map, List.getElem?_zipIdx, Option.map_map, Nat.add_comm 1 k]
  rfl

theorem lt_length_lines {arch : Arch} {source : Text} {k : Nat} (atK : (ofSource arch source)[k]? = some effect) :
    k < (Text.lines source).length := by
  rw [ofSource_getElem?] at atK
  obtain ⟨_, atLine, _⟩ := Option.map_eq_some_iff.mp atK
  exact (List.getElem?_eq_some_iff.mp atLine).1

theorem line_of_mem_ofSource {arch : Arch} {source : Text} {k : Nat} {i : Instr}
    (atK : (ofSource arch source)[k]? = some effect) (member : i ∈ effect.emitted) : i.line = k + 1 := by
  rw [ofSource_getElem?] at atK
  obtain ⟨raw, _, rfl⟩ := Option.map_eq_some_iff.mp atK
  exact line_of_mem_ofLine member

end LineEffect

end RiscAsm
