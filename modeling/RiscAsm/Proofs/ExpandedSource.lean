import RiscAsm.Expansion
import RiscAsm.Proofs.DecodingTable

namespace RiscAsm

namespace LineEffect

def Accepted (effect : LineEffect) : Prop := ∃ instrs, effect.instrs = .ok instrs

/-- The instructions that a line adds; a line at fault adds none. -/
def emitted (effect : LineEffect) : List Instr :=
  match effect.instrs with
  | .ok instrs => instrs
  | .error _ => []

def size (effect : LineEffect) : Nat := effect.emitted.length

/-- What lines with consecutive numbers add. -/
def ofLines (arch : Arch) (start : Nat) (raws : List Text) : List LineEffect :=
  (raws.zipIdx start).map fun numbered => ofLine arch numbered.2 numbered.1

def ofSource (arch : Arch) (source : Text) : List LineEffect := ofLines arch 1 (Text.lines source)

theorem ofLines_cons (arch : Arch) (start : Nat) (raw : Text) (raws : List Text) :
    ofLines arch start (raw :: raws) = ofLine arch start raw :: ofLines arch (start + 1) raws := rfl

/-- The number of instructions that the lines before a position add. -/
def sizeBefore (effects : List LineEffect) (k : Nat) : Nat := ((effects.take k).map size).sum

theorem sizeBefore_cons_succ (effect : LineEffect) (effects : List LineEffect) (k : Nat) :
    sizeBefore (effect :: effects) (k + 1) = effect.size + sizeBefore effects k := by
  simp [sizeBefore]

theorem sizeBefore_le (effects : List LineEffect) (k : Nat) :
    sizeBefore effects k ≤ (effects.flatMap emitted).length := by
  induction effects generalizing k with
  | nil => simp [sizeBefore]
  | cons effect effects ih =>
    cases k with
    | zero => simp [sizeBefore]
    | succ k =>
      rw [sizeBefore_cons_succ, List.flatMap_cons, List.length_append]
      exact Nat.add_le_add_left (ih k) _

theorem length_flatMap_emitted (effects : List LineEffect) :
    (effects.flatMap emitted).length = (effects.map size).sum := List.length_flatMap

end LineEffect

open LineEffect

/-- The labels of lines, each with the number of instructions before it. -/
def LabelDef.ofEffects (index line : Nat) : List LineEffect → List LabelDef
  | [] => []
  | effect :: effects =>
    (effect.label.map fun name => ⟨name, index, line⟩).toList ++ ofEffects (index + effect.size) (line + 1) effects

theorem LabelDef.mem_ofEffects {d : LabelDef} {index line : Nat} {effects : List LineEffect} :
    d ∈ ofEffects index line effects ↔
      ∃ k effect, effects[k]? = some effect ∧ effect.label = some d.name ∧ d.line = line + k ∧
        d.index = index + sizeBefore effects k := by
  induction effects generalizing index line with
  | nil => simp [ofEffects]
  | cons first effects ih =>
    rw [ofEffects, List.mem_append, ih]
    constructor
    · rintro (here | ⟨k, effect, atK, named, ofLine, ofIndex⟩)
      · obtain ⟨name, labelled, rfl⟩ := Option.map_eq_some_iff.mp (Option.mem_toList.mp here)
        exact ⟨0, first, rfl, labelled, rfl, by simp [sizeBefore]⟩
      · exact ⟨k + 1, effect, atK, named, by omega, by rw [sizeBefore_cons_succ]; omega⟩
    · rintro ⟨k, effect, atK, named, ofLine, ofIndex⟩
      cases k with
      | zero =>
        cases Option.some.inj atK
        refine Or.inl (Option.mem_toList.mpr (Option.map_eq_some_iff.mpr ⟨d.name, named, ?_⟩))
        cases d
        simp_all [sizeBefore]
      | succ k =>
        rw [sizeBefore_cons_succ] at ofIndex
        exact Or.inr ⟨k, effect, atK, named, by omega, by omega⟩

namespace Expansion

theorem eq_iff {a b : Expansion} :
    a = b ↔ a.arch = b.arch ∧ a.instrs.toList = b.instrs.toList ∧ a.labels.toList = b.labels.toList := by
  cases a
  cases b
  simp [Array.toList_inj]

theorem step_eq_ok_iff {e next : Expansion} {raw : Text} {line : Nat} :
    e.step (raw, line) = .ok next ↔ (ofLine e.arch line raw).Accepted ∧ next.arch = e.arch ∧
      next.instrs.toList = e.instrs.toList ++ (ofLine e.arch line raw).emitted ∧
      next.labels.toList = e.labels.toList ++ LabelDef.ofEffects e.instrs.size line [ofLine e.arch line raw] := by
  unfold step feed
  generalize ofLine e.arch line raw = effect
  obtain ⟨label, instrs⟩ := effect
  cases instrs with
  | error diagnostic => simp [Accepted]
  | ok instrs =>
    rw [Except.ok.injEq, eq_comm, eq_iff]
    cases label <;> simp [Accepted, emitted, define, append, LabelDef.ofEffects]

/-- Expanding lines adds what each of them adds, in their order, and no line has a fault. -/
theorem foldlM_step_eq_ok_iff {raws : List Text} {start : Nat} {e last : Expansion} :
    (raws.zipIdx start).foldlM step e = .ok last ↔
      (∀ effect ∈ ofLines e.arch start raws, effect.Accepted) ∧ last.arch = e.arch ∧
      last.instrs.toList = e.instrs.toList ++ (ofLines e.arch start raws).flatMap emitted ∧
      last.labels.toList = e.labels.toList ++ LabelDef.ofEffects e.instrs.size start (ofLines e.arch start raws) := by
  -- Each line starts from what the lines before it have added, so the induction is for any such start.
  induction raws generalizing start e with
  | nil =>
    rw [List.zipIdx_nil, List.foldlM_nil, pure_eq_ok, eq_comm, eq_iff]
    simp [ofLines, LabelDef.ofEffects]
  | cons raw raws ih =>
    rw [List.zipIdx_cons, List.foldlM_cons, bind_eq_ok, ofLines_cons]
    simp only [List.forall_mem_cons, List.flatMap_cons, LabelDef.ofEffects]
    constructor
    · rintro ⟨next, first, rest⟩
      obtain ⟨accepted, sameArch, instrs, labels⟩ := step_eq_ok_iff.mp first
      obtain ⟨others, arch, lastInstrs, lastLabels⟩ := ih.mp rest
      have grown : next.instrs.size = e.instrs.size + (ofLine e.arch start raw).size := by
        rw [← Array.length_toList, instrs, List.length_append, Array.length_toList]
        rfl
      rw [sameArch] at others arch lastInstrs lastLabels
      rw [instrs] at lastInstrs
      rw [labels, grown] at lastLabels
      exact ⟨⟨accepted, others⟩, arch, by simp [lastInstrs], by simp [lastLabels, LabelDef.ofEffects]⟩
    · rintro ⟨⟨accepted, others⟩, arch, lastInstrs, lastLabels⟩
      let effect := ofLine e.arch start raw
      let next : Expansion := ⟨e.arch, (e.instrs.toList ++ effect.emitted).toArray,
        (e.labels.toList ++ LabelDef.ofEffects e.instrs.size start [effect]).toArray⟩
      have grown : next.instrs.size = e.instrs.size + effect.size := by simp [next, LineEffect.size]
      refine ⟨next, step_eq_ok_iff.mpr ⟨accepted, rfl, rfl, rfl⟩, ih.mpr ⟨others, arch, ?_, ?_⟩⟩
      · simpa [next] using lastInstrs
      · rw [grown]
        simpa [next, LabelDef.ofEffects] using lastLabels

/-- The expansion of a source is what its lines add. -/
theorem ofSource_eq_ok_iff {arch : Arch} {source : Text} {e : Expansion} :
    ofSource arch source = .ok e ↔
      (∀ effect ∈ LineEffect.ofSource arch source, effect.Accepted) ∧ e.arch = arch ∧
      e.instrs.toList = (LineEffect.ofSource arch source).flatMap emitted ∧
      e.labels.toList = LabelDef.ofEffects 0 1 (LineEffect.ofSource arch source) := by
  unfold ofSource
  rw [foldlM_step_eq_ok_iff]
  rfl

theorem exists_ofSource {arch : Arch} {source : Text}
    (accepted : ∀ effect ∈ LineEffect.ofSource arch source, effect.Accepted) : ∃ e, ofSource arch source = .ok e :=
  let effects := LineEffect.ofSource arch source
  ⟨⟨arch, (effects.flatMap emitted).toArray, (LabelDef.ofEffects 0 1 effects).toArray⟩,
    ofSource_eq_ok_iff.mpr ⟨accepted, rfl, rfl, rfl⟩⟩

end Expansion

theorem Statement.instr_eq_ok_iff {arch : Arch} {line : Nat} {origin : Option Pseudo} {s : Statement} {i : Instr} :
    s.instr arch line origin = .ok i ↔
      ∃ format, arch.format? s.mnemonic = some format ∧ ⟨s.mnemonic, s.operands, format, line, origin⟩ = i := by
  unfold instr
  cases arch.format? s.mnemonic <;> simp

/-- The instructions that a statement stands for. They are the statement itself if its mnemonic is in the table, and
one for each statement that a pseudo instruction is rewritten to. -/
inductive Statement.Yields (arch : Arch) (line : Nat) (s : Statement) : List Instr → Prop
  | direct {format : Format} (noPseudo : Pseudo.ofMnemonic? arch s.mnemonic = none)
      (found : arch.format? s.mnemonic = some format) :
      Yields arch line s [⟨s.mnemonic, s.operands, format, line, none⟩]
  | rewritten {pseudo : Pseudo} {statements : List Statement} {instrs : List Instr}
      (known : Pseudo.ofMnemonic? arch s.mnemonic = some pseudo)
      (rewritten : pseudo.rewrite arch s.operands = .ok statements)
      (each : List.Forall₂ (fun t i => ∃ format, arch.format? t.mnemonic = some format ∧
        ⟨t.mnemonic, t.operands, format, line, some pseudo⟩ = i) statements instrs) :
      Yields arch line s instrs

namespace Statement

variable {arch : Arch} {line : Nat} {s : Statement} {instrs : List Instr}

theorem expand_eq_ok_iff : s.expand arch line = .ok instrs ↔ s.Yields arch line instrs := by
  constructor
  · intro expanded
    unfold expand at expanded
    split at expanded
    · rename_i pseudo known
      obtain ⟨statements, rewritten, made⟩ := bind_eq_ok.mp expanded
      exact .rewritten known rewritten ((mapM_eq_ok_iff.mp made).imp fun _ _ => instr_eq_ok_iff.mp)
    · rename_i noPseudo
      obtain ⟨direct, made, whole⟩ := bind_eq_ok.mp expanded
      cases whole
      obtain ⟨format, found, rfl⟩ := instr_eq_ok_iff.mp made
      exact .direct noPseudo found
  · intro yields
    cases yields with
    | direct noPseudo found => exact expand_of_format? noPseudo found line
    | rewritten known rewritten each =>
      exact expand_of_rewrite known rewritten (each.imp fun _ _ => instr_eq_ok_iff.mpr)

/-- An instruction that a statement adds is the statement itself or one of those that it stands for. -/
theorem instr_of_mem_expand (expanded : s.expand arch line = .ok instrs) {i : Instr} (member : i ∈ instrs) :
    ∃ t origin, t.instr arch line origin = .ok i ∧
      (t = s ∨ ∃ pseudo statements, Pseudo.rewrite arch pseudo s.operands = .ok statements ∧ t ∈ statements) := by
  cases expand_eq_ok_iff.mp expanded with
  | direct noPseudo found =>
    cases List.mem_singleton.mp member
    exact ⟨s, none, instr_of_format? found line none, .inl rfl⟩
  | @rewritten pseudo statements _ _ rewritten each =>
    obtain ⟨k, bound, rfl⟩ := List.getElem_of_mem member
    have inside : k < statements.length := by rw [each.length_eq]; exact bound
    exact ⟨statements[k], some pseudo, instr_eq_ok_iff.mpr (each.get inside bound),
      .inr ⟨pseudo, statements, rewritten, List.getElem_mem inside⟩⟩

end Statement

theorem LineEffect.expand_of_mem_emitted {arch : Arch} {line : Nat} {raw : Text} {i : Instr}
    (member : i ∈ (ofLine arch line raw).emitted) :
    ∃ label s instrs, SourceLine.read raw = .ok ⟨label, some s⟩ ∧ s.expand arch line = .ok instrs ∧ i ∈ instrs := by
  unfold ofLine at member
  split at member
  · cases member
  · cases member
  · rename_i label s read
    split at member
    · rename_i instrs expanded
      exact ⟨label, s, instrs, read, expanded, member⟩
    · cases member

theorem LineEffect.listed_of_mem_emitted {arch : Arch} {line : Nat} {raw : Text} {i : Instr}
    (member : i ∈ (ofLine arch line raw).emitted) : (i.mnemonic, i.format) ∈ arch.formats := by
  obtain ⟨_, _, _, _, expanded, inInstrs⟩ := expand_of_mem_emitted member
  obtain ⟨t, origin, made, _⟩ := Statement.instr_of_mem_expand expanded inInstrs
  obtain ⟨format, found, rfl⟩ := Statement.instr_eq_ok_iff.mp made
  exact Arch.format?_eq_some.mp found

theorem LineEffect.listed_of_mem_ofSource {arch : Arch} {source : Text} {i : Instr}
    (member : i ∈ (LineEffect.ofSource arch source).flatMap emitted) : (i.mnemonic, i.format) ∈ arch.formats := by
  obtain ⟨effect, inSource, inEffect⟩ := List.mem_flatMap.mp member
  obtain ⟨numbered, _, rfl⟩ := List.mem_map.mp inSource
  exact listed_of_mem_emitted inEffect

theorem SourceLine.isIdentifier_of_read {raw : Text} {line : SourceLine} {name : Text} (read : read raw = .ok line)
    (labelled : line.label = some name) : isIdentifier name := by
  unfold SourceLine.read at read
  dsimp only at read
  split at read
  · cases read
    cases labelled
  · split at read
    · rename_i identifier
      cases read
      cases labelled
      exact identifier
    · cases read

theorem LineEffect.isIdentifier_of_label {arch : Arch} {line : Nat} {raw name : Text}
    (labelled : (ofLine arch line raw).label = some name) : isIdentifier name := by
  unfold ofLine at labelled
  split at labelled
  · cases labelled
  · rename_i label read
    exact SourceLine.isIdentifier_of_read read labelled
  · rename_i label s read
    refine SourceLine.isIdentifier_of_read read ?_
    split at labelled <;> exact labelled

end RiscAsm
