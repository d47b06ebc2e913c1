import RiscAsm.Proofs.AgreeingInstructions
import RiscAsm.Proofs.FaultOrigins
import RiscAsm.Proofs.ResolvedLabels

namespace RiscAsm

open LineEffect

namespace LineEffect

/-- The fault of a line, if it has one. -/
def fault? (effect : LineEffect) : Option Diagnostic :=
  match effect.instrs with
  | .ok _ => none
  | .error diagnostic => some diagnostic

theorem DefinesAt.unique {effects : List LineEffect} {k : Nat} {name other : Text} (defined : DefinesAt effects k name)
    (definedToo : DefinesAt effects k other) : name = other :=
  Option.some.inj (defined.symm.trans definedToo)

theorem FirstRepeat.unique {effects : List LineEffect} {i j k l : Nat} {name other : Text}
    (first : FirstRepeat effects i k name) (second : FirstRepeat effects j l other) : i = j ∧ k = l ∧ name = other := by
  have sameLine : k = l := by
    rcases lt_trichotomy k l with above | same | below
    · exact absurd first.first (second.earliest k above name first.again i first.before)
    · exact same
    · exact absurd second.first (first.earliest l below other second.again j second.before)
  subst sameLine
  obtain rfl := first.again.unique second.again
  refine ⟨?_, rfl, rfl⟩
  rcases lt_trichotomy i j with above | same | below
  · exact absurd first.first (second.fresh i above)
  · exact same
  · exact absurd second.first (first.fresh j below)

end LineEffect

namespace Expansion

variable {e : Expansion} {raw : Text} {line : Nat} {d : Diagnostic}

/-- Whether a line is at fault does not depend on what came before it. -/
theorem feed_fault (e : Expansion) (line : Nat) (raw : Text) :
    (e.feed line raw).2 = (ofLine e.arch line raw).fault? := by
  unfold feed fault?
  cases found : (ofLine e.arch line raw).instrs <;> simp only [found]

theorem step_of_error (failed : (ofLine e.arch line raw).instrs = .error d) : e.step (raw, line) = .error d := by
  simp only [step, feed, failed]

theorem step_of_ok {instrs : List Instr} (accepted : (ofLine e.arch line raw).instrs = .ok instrs) :
    ∃ next, e.step (raw, line) = .ok next ∧ next.arch = e.arch := by
  refine ⟨(e.feed line raw).1, ?_, ?_⟩
  · simp only [step, feed, accepted]
  · cases labelled : (ofLine e.arch line raw).label <;> simp [feed, accepted, labelled, define, append]

theorem foldlM_step_eq_error_iff {raws : List Text} {start : Nat} :
    (raws.zipIdx start).foldlM step e = .error d ↔
      ∃ k, FirstError ((ofLines e.arch start raws).map LineEffect.instrs) k d := by
  induction raws generalizing start e with
  | nil => exact ⟨nofun, fun ⟨_, first⟩ => absurd first firstError_nil⟩
  | cons raw raws ih =>
    rw [List.zipIdx_cons, List.foldlM_cons, ofLines_cons, List.map_cons, bind_eq_error]
    cases found : (ofLine e.arch start raw).instrs with
    | error first => simp [step_of_error found, exists_firstError_cons_error]
    | ok instrs =>
      obtain ⟨next, stepped, same⟩ := step_of_ok found
      simp [stepped, exists_firstError_cons_ok, ih, same]

/-- A source does not expand if a line is at fault, and the first such line is reported. -/
theorem ofSource_eq_error_iff {arch : Arch} {source : Text} :
    ofSource arch source = .error d ↔
      ∃ k, FirstError ((LineEffect.ofSource arch source).map LineEffect.instrs) k d := foldlM_step_eq_error_iff

end Expansion

namespace LabelTable

/-- A table of all labels that the lines of a source define. -/
def Complete (t : LabelTable) (effects : List LineEffect) : Prop :=
  ∀ name label, t.find? name = some label ↔
    ∃ k, DefinesAt effects k name ∧ label = ⟨name, addressOf (sizeBefore effects k), k + 1⟩

variable {t other : LabelTable} {effects : List LineEffect}

theorem Complete.distinct (complete : t.Complete effects) : Distinct effects := by
  intro i k name first again
  have found := (complete name _).mpr ⟨i, first, rfl⟩
  have foundToo := (complete name _).mpr ⟨k, again, rfl⟩
  exact Nat.succ.inj (congrArg Label.line (Option.some.inj (found.symm.trans foundToo)))

theorem Complete.address?_eq (complete : t.Complete effects) (completeToo : other.Complete effects) (name : Text) :
    t.address? name = other.address? name := by
  have same : t.find? name = other.find? name :=
    Option.ext fun label => (complete name label).trans (completeToo name label).symm
  simp only [address?, same]

end LabelTable

theorem PlacedInstr.word_eq_error_iff {arch : Arch} {labels : LabelTable} {instr : PlacedInstr} {d : Diagnostic} :
    instr.word arch labels = .error d ↔
      ∃ fault, instr.encode arch labels = .error fault ∧ d = ⟨instr.line, instr.mnemonic, instr.operands, fault⟩ := by
  unfold word
  cases instr.encode arch labels <;> simp [eq_comm]

/-- The first instruction that a program cannot encode, and the fault that it has. -/
structure Program.FirstRejected (arch : Arch) (labels : LabelTable) (instrs : List PlacedInstr) (instr : PlacedInstr)
    (fault : Fault) : Prop where
  rejected : instr.encode arch labels = .error fault
  first : ∃ i : Nat, instrs[i]? = some instr ∧
    ∀ l < i, ∀ earlier, instrs[l]? = some earlier → ∃ word, earlier.encode arch labels = .ok word

theorem Program.encode_eq_error_iff {p : Program} {d : Diagnostic} :
    p.encode = .error d ↔ ∃ instr fault, FirstRejected p.arch p.labels p.instrs instr fault ∧
      d = ⟨instr.line, instr.mnemonic, instr.operands, fault⟩ := by
  unfold encode
  rw [mapM_eq_error_iff]
  constructor
  · rintro ⟨i, here, before⟩
    rw [List.getElem?_map] at here
    obtain ⟨instr, atIndex, failed⟩ := Option.map_eq_some_iff.mp here
    obtain ⟨fault, rejected, same⟩ := PlacedInstr.word_eq_error_iff.mp failed
    refine ⟨instr, fault, ⟨rejected, i, atIndex, fun l above earlier atL => ?_⟩, same⟩
    obtain ⟨word, encoded⟩ := before l above
    rw [List.getElem?_map, atL] at encoded
    exact ⟨word, PlacedInstr.word_eq_ok_iff.mp (Option.some.inj encoded)⟩
  · rintro ⟨instr, fault, ⟨rejected, i, atIndex, before⟩, rfl⟩
    refine ⟨i, ?_, fun l above => ?_⟩
    · rw [List.getElem?_map, atIndex]
      exact congrArg some (PlacedInstr.word_eq_error_iff.mpr ⟨fault, rejected, rfl⟩)
    · have inside := (List.getElem?_eq_some_iff.mp atIndex).1
      obtain ⟨word, encoded⟩ := before l above _ (List.getElem?_eq_getElem (by omega))
      refine ⟨word, ?_⟩
      rw [List.getElem?_map, List.getElem?_eq_getElem (by omega)]
      exact congrArg some (PlacedInstr.word_eq_ok_iff.mpr encoded)

namespace Assembly

variable {arch : Arch} {source : Text} {d : Diagnostic}

/-- The fault of a source. The first line at fault counts, whatever labels there are. If there is none, the earliest
line that repeats a label counts, and if there is none of these either, the first instruction that cannot be encoded
with all labels of the source. -/
inductive FirstFault (arch : Arch) (source : Text) : Diagnostic → Prop
  | line {k : Nat} {d : Diagnostic} (first : FirstError ((LineEffect.ofSource arch source).map LineEffect.instrs) k d) :
    FirstFault arch source d
  | label {i k : Nat} {name : Text} (accepted : ∀ effect ∈ LineEffect.ofSource arch source, effect.Accepted)
    (repeated : FirstRepeat (LineEffect.ofSource arch source) i k name) :
    FirstFault arch source ⟨k + 1, name ++ [':'], [], .duplicateLabel name (i + 1)⟩
  | instruction {labels : LabelTable} {instr : PlacedInstr} {fault : Fault}
    (accepted : ∀ effect ∈ LineEffect.ofSource arch source, effect.Accepted)
    (complete : labels.Complete (LineEffect.ofSource arch source))
    (first : Program.FirstRejected arch labels (Program.place ((LineEffect.ofSource arch source).flatMap emitted))
      instr fault) :
    FirstFault arch source ⟨instr.line, instr.mnemonic, instr.operands, fault⟩

theorem parts_of_ofExpansion {e : Expansion} {p : Program} (expanded : Expansion.ofSource arch source = .ok e)
    (resolved : Program.ofExpansion e = .ok p) :
    p.arch = arch ∧ p.instrs = Program.place ((LineEffect.ofSource arch source).flatMap emitted) ∧
      p.labels.Complete (LineEffect.ofSource arch source) := by
  obtain ⟨_, own, _, _⟩ := Expansion.ofSource_eq_ok_iff.mp expanded
  obtain ⟨table, _, same⟩ := bind_eq_ok.mp resolved
  refine ⟨by cases same; exact own, (Program.instrs_of_ofExpansion expanded resolved).1, fun name label => ?_⟩
  rw [LabelTable.find?_eq_some_iff, Program.mem_labels_iff expanded resolved]
  constructor
  · rintro ⟨⟨k, _, defined, rfl⟩, rfl⟩
    exact ⟨k, defined, rfl⟩
  · rintro ⟨k, defined, rfl⟩
    exact ⟨⟨k, name, defined, rfl⟩, rfl⟩

theorem firstFault_of_error (failed : ofSource arch source = .error d) : FirstFault arch source d := by
  rcases bind_eq_error.mp failed with failed | ⟨e, expanded, failed⟩
  · obtain ⟨k, first⟩ := Expansion.ofSource_eq_error_iff.mp failed
    exact .line first
  obtain ⟨accepted, _⟩ := Expansion.ofSource_eq_ok_iff.mp expanded
  rcases bind_eq_error.mp failed with failed | ⟨p, resolved, failed⟩
  · by_cases distinct : Distinct (LineEffect.ofSource arch source)
    · obtain ⟨_, resolved, _⟩ := Program.ofExpansion_of_distinct expanded distinct
      rw [resolved] at failed
      cases failed
    · obtain ⟨i, k, name, repeated, reported⟩ := Program.ofExpansion_of_not_distinct expanded distinct
      cases failed.symm.trans reported
      exact .label accepted repeated
  · obtain ⟨own, instrs, complete⟩ := parts_of_ofExpansion expanded resolved
    rcases bind_eq_error.mp failed with failed | ⟨_, _, noFault⟩
    · obtain ⟨instr, fault, first, rfl⟩ := Program.encode_eq_error_iff.mp failed
      rw [own, instrs] at first
      exact .instruction accepted complete first
    · cases noFault

theorem error_of_firstFault (first : FirstFault arch source d) : ofSource arch source = .error d := by
  cases first with
  | line first =>
    exact bind_eq_error.mpr (.inl (Expansion.ofSource_eq_error_iff.mpr ⟨_, first⟩))
  | label accepted repeated =>
    obtain ⟨e, expanded⟩ := Expansion.exists_ofSource accepted
    obtain ⟨i, k, name, repeatedToo, reported⟩ := Program.ofExpansion_of_not_distinct expanded repeated.not_distinct
    obtain ⟨rfl, rfl, rfl⟩ := repeated.unique repeatedToo
    exact bind_eq_error.mpr (.inr ⟨e, expanded, bind_eq_error.mpr (.inl reported)⟩)
  | @instruction labels instr fault accepted complete first =>
    obtain ⟨e, expanded⟩ := Expansion.exists_ofSource accepted
    obtain ⟨table, resolved, _⟩ := Program.ofExpansion_of_distinct expanded complete.distinct
    obtain ⟨_, instrs, completeToo⟩ := parts_of_ofExpansion expanded resolved
    -- Whichever complete table is given, the source has one with the same labels.
    have same : ∀ instr : PlacedInstr, instr.encode arch labels = instr.encode arch table := fun instr =>
      PlacedInstr.encode_congr (complete.address?_eq completeToo) arch (.refl instr)
    have rejected : Program.encode ⟨arch, Program.place e.instrs.toList, table⟩ =
        .error ⟨instr.line, instr.mnemonic, instr.operands, fault⟩ := by
      refine Program.encode_eq_error_iff.mpr ⟨instr, fault, ?_, rfl⟩
      rw [instrs]
      exact ⟨same instr ▸ first.rejected, by simpa only [same] using first.first⟩
    refine bind_eq_error.mpr (.inr ⟨e, expanded, bind_eq_error.mpr (.inr ⟨_, resolved, ?_⟩)⟩)
    exact bind_eq_error.mpr (.inl rejected)

/-- What a reported fault says about the source. -/
structure Explains (arch : Arch) (source : Text) (d : Diagnostic) : Prop where
  undefined : ∀ name, d.fault = .undefinedLabel name →
    isIdentifier name ∧ ∀ k, ¬ DefinesAt (LineEffect.ofSource arch source) k name
  unknown : ∀ mnemonic, d.fault = .unknownMnemonic mnemonic →
    Pseudo.ofMnemonic? arch mnemonic = none ∧ arch.format? mnemonic = none
  line_pos : 1 ≤ d.line
  line_le : d.line ≤ (Text.lines source).length

/-- The fault of a line carries the number of that line. -/
theorem fault_of_getElem? {k : Nat} {effect : LineEffect} (atK : (LineEffect.ofSource arch source)[k]? = some effect)
    (failed : effect.instrs = .error d) : d.line = k + 1 ∧ d.fault.OfLine arch := by
  rw [ofSource_getElem?] at atK
  obtain ⟨raw, _, rfl⟩ := Option.map_eq_some_iff.mp atK
  exact fault_ofLine failed

theorem explains_line {k : Nat} (first : FirstError ((LineEffect.ofSource arch source).map LineEffect.instrs) k d) :
    Explains arch source d := by
  have here := first.here
  rw [List.getElem?_map] at here
  obtain ⟨effect, atK, failed⟩ := Option.map_eq_some_iff.mp here
  have inside := lt_length_lines atK
  obtain ⟨line, origin⟩ := fault_of_getElem? atK failed
  refine ⟨fun name same => ?_, fun mnemonic same => ?_, by omega, by omega⟩
  · rw [same] at origin
    cases origin
  · rw [same] at origin
    exact origin

/-- A placed instruction was added by the line that it carries the number of. -/
theorem exists_emitted_of_place {i : Nat} {instr : PlacedInstr}
    (atIndex : (Program.place ((LineEffect.ofSource arch source).flatMap emitted))[i]? = some instr) :
    ∃ k effect, (LineEffect.ofSource arch source)[k]? = some effect ∧ instr.toInstr ∈ effect.emitted ∧
      instr.line = k + 1 := by
  rw [Program.place_getElem?] at atIndex
  obtain ⟨base, found, rfl⟩ := Option.map_eq_some_iff.mp atIndex
  obtain ⟨effect, member, inEffect⟩ := List.mem_flatMap.mp (List.mem_of_getElem? found)
  obtain ⟨k, atK⟩ := List.getElem?_of_mem member
  exact ⟨k, effect, atK, inEffect, line_of_mem_ofSource atK inEffect⟩

theorem explains_instruction {labels : LabelTable} {instr : PlacedInstr} {fault : Fault}
    (complete : labels.Complete (LineEffect.ofSource arch source))
    (first : Program.FirstRejected arch labels (Program.place ((LineEffect.ofSource arch source).flatMap emitted))
      instr fault) :
    Explains arch source ⟨instr.line, instr.mnemonic, instr.operands, fault⟩ := by
  have origin := PlacedInstr.raises_encode arch labels instr fault first.rejected
  obtain ⟨i, atIndex, _⟩ := first.first
  obtain ⟨k, effect, atK, _, line⟩ := exists_emitted_of_place atIndex
  constructor
  case undefined =>
    rintro name rfl
    refine ⟨origin.1, fun k defined => ?_⟩
    have known := (complete name _).mpr ⟨k, defined, rfl⟩
    rw [origin.2] at known
    cases known
  case unknown =>
    rintro mnemonic rfl
    cases origin
  case line_pos => exact line ▸ Nat.succ_pos k
  case line_le => exact line ▸ lt_length_lines atK

theorem FirstFault.explains (first : FirstFault arch source d) : Explains arch source d := by
  cases first with
  | line first => exact explains_line first
  | @label i k name accepted repeated =>
    obtain ⟨effect, atK, _⟩ := Option.bind_eq_some_iff.mp repeated.again
    exact ⟨nofun, nofun, Nat.succ_pos k, lt_length_lines atK⟩
  | instruction accepted complete first => exact explains_instruction complete first

/-- Whether a line is at fault, and how, depends on its number and text alone. A source is refused with the fault that
comes first, and assembled if there is none. A label is reported as undefined only if no line of the source defines it,
a mnemonic as unknown only if it is neither a pseudo instruction nor in the table, and the line is one of the source. -/
theorem reports_first_fault (arch : Arch) (source : Text) :
    (∀ (e : Expansion) line raw, e.arch = arch → (e.feed line raw).2 = (LineEffect.ofLine arch line raw).fault?) ∧
    (∀ d, ofSource arch source = .error d ↔ FirstFault arch source d) ∧
    ((¬ ∃ d, FirstFault arch source d) ↔ ∃ a, ofSource arch source = .ok a) ∧
    ∀ d, ofSource arch source = .error d → Explains arch source d := by
  refine ⟨?_, fun d => ⟨firstFault_of_error, error_of_firstFault⟩, ?_, fun d failed => ?_⟩
  · rintro e line raw rfl
    exact e.feed_fault line raw
  · cases accepted : ofSource arch source with
    | ok a => exact ⟨fun _ => ⟨a, rfl⟩, fun _ ⟨d, first⟩ => by cases accepted.symm.trans (error_of_firstFault first)⟩
    | error d => exact ⟨fun faultless => absurd ⟨d, firstFault_of_error accepted⟩ faultless, nofun⟩
  · exact (firstFault_of_error failed).explains

/-- An unknown mnemonic is reported before a repeated label and an undefined one, although both stand before it. -/
theorem reports_first_fault_line :
    ofSource .mips "a: j b\na: nop\nfoo".toList = .error ⟨3, "foo".toList, [], .unknownMnemonic "foo".toList⟩ := by
  have accepted : ∀ i < 2, ((LineEffect.ofSource .mips "a: j b\na: nop\nfoo".toList).map LineEffect.instrs)[i]?.map
      Except.isOk = some true := by decide +kernel
  refine ((reports_first_fault _ _).2.1 _).mpr (.line (k := 2) ⟨by decide +kernel, fun i above => ?_⟩)
  obtain ⟨check, atI, isOk⟩ := Option.map_eq_some_iff.mp (accepted i above)
  cases check with
  | error _ => cases isOk
  | ok result => exact ⟨result, atI⟩

end Assembly

end RiscAsm
