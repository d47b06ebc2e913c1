import RiscAsm.Proofs.FirstFaults
import RiscAsm.Proofs.LabelBindings
import RiscAsm.Proofs.LineEdits
import RiscAsm.Proofs.RelatedResults

namespace RiscAsm

open Text LineEffect

variable {shift : Nat → Nat} {arch : Arch} {line : Nat}

/-- The same fault, when lines have other numbers. -/
def Fault.shifted (shift : Nat → Nat) : Fault → Fault
  | .duplicateLabel name firstLine => .duplicateLabel name (shift firstLine)
  | fault => fault

/-- The same fault of the same statement, which now has another line. -/
structure Diagnostic.Shifted (shift : Nat → Nat) (d e : Diagnostic) : Prop where
  line : e.line = shift d.line
  mnemonic : e.mnemonic = d.mnemonic
  fault : e.fault = d.fault.shifted shift

/-- Instructions that are encoded alike, where the second has the line that belongs to that of the first. -/
structure Instr.Shifted (shift : Nat → Nat) (a b : Instr) : Prop where
  agrees : a.Agrees b
  line : b.line = shift a.line

def LabelDef.shifted (shift : Nat → Nat) (d : LabelDef) : LabelDef := { d with line := shift d.line }

def Label.shifted (shift : Nat → Nat) (label : Label) : Label := { label with line := shift label.line }

theorem Fault.shifted_of_ofLine {fault : Fault} (origin : fault.OfLine arch) : fault.shifted shift = fault := by
  cases fault with
  | duplicateLabel => cases origin
  | _ => rfl

theorem Fault.shifted_of_ofEncoding {labels : LabelTable} {fault : Fault} (origin : fault.OfEncoding labels) :
    fault.shifted shift = fault := by
  cases fault with
  | duplicateLabel => cases origin
  | _ => rfl

theorem Pseudo.rewrite_congr {a b : Text} (same : Operand.split a = Operand.split b) (arch : Arch) (pseudo : Pseudo) :
    pseudo.rewrite arch a = pseudo.rewrite arch b := by
  unfold rewrite
  rw [same]

namespace Statement

variable {s t : Statement} (same : s.tokens = t.tokens)

include same

theorem related_instr (arch : Arch) (shift : Nat → Nat) (line : Nat) (origin : Option Pseudo) :
    Related Eq (Instr.Shifted shift) (s.instr arch line origin) (t.instr arch (shift line) origin) := by
  obtain ⟨mnemonic, operands⟩ := Prod.mk.inj same
  unfold instr
  rw [← mnemonic]
  cases arch.format? s.mnemonic with
  | none => exact .error rfl
  | some format => exact .ok ⟨⟨rfl, operands, rfl⟩, rfl⟩

/-- Statements with the same mnemonic and operands have the same instructions. -/
theorem related_expand (arch : Arch) (shift : Nat → Nat) (line : Nat) :
    Related Eq (List.Forall₂ (Instr.Shifted shift)) (s.expand arch line) (t.expand arch (shift line)) := by
  obtain ⟨mnemonic, operands⟩ := Prod.mk.inj same
  unfold expand
  rw [← mnemonic]
  cases Pseudo.ofMnemonic? arch s.mnemonic with
  | none => exact (related_instr same arch shift line none).bind fun _ _ shifted => .ok (.cons shifted .nil)
  | some pseudo =>
    dsimp only
    rw [← Pseudo.rewrite_congr operands arch pseudo]
    cases pseudo.rewrite arch s.operands with
    | error fault => exact .error rfl
    | ok statements =>
      exact Related.mapM (List.forall₂_same.mpr fun s _ => rfl) fun a b equal =>
        related_instr (congrArg tokens equal) arch shift line (some pseudo)

end Statement

namespace LineEffect

variable {raw edited : Text}

/-- Lines that say the same have the same effect. -/
theorem related_ofLine (same : SourceLine.scan edited = SourceLine.scan raw) (arch : Arch) (shift : Nat → Nat)
    (line : Nat) :
    (ofLine arch (shift line) edited).label = (ofLine arch line raw).label ∧
      Related (Diagnostic.Shifted shift) (List.Forall₂ (Instr.Shifted shift)) (ofLine arch line raw).instrs
        (ofLine arch (shift line) edited).instrs := by
  have raises := SourceLine.raises_read arch raw
  unfold SourceLine.scan at same
  unfold ofLine
  cases read : SourceLine.read raw with
  | error fault =>
    cases readToo : SourceLine.read edited with
    | ok _ => simp [read, readToo, Functor.map, Except.map] at same
    | error other =>
      have equal : other = fault := by simpa [read, readToo, Functor.map, Except.map] using same
      exact ⟨rfl, .error ⟨rfl, rfl, by rw [Fault.shifted_of_ofLine (raises fault read)]; exact equal⟩⟩
  | ok source =>
    cases readToo : SourceLine.read edited with
    | error _ => simp [read, readToo, Functor.map, Except.map] at same
    | ok other =>
      obtain ⟨label, statement⟩ := source
      obtain ⟨labelToo, statementToo⟩ := other
      have equal : labelToo = label ∧ statementToo.map Statement.tokens = statement.map Statement.tokens := by
        simpa [read, readToo, Functor.map, Except.map, SourceLine.tokens] using same
      obtain ⟨rfl, statements⟩ := equal
      cases statement with
      | none =>
        cases Option.map_eq_none_iff.mp statements
        exact ⟨rfl, .ok .nil⟩
      | some s =>
        obtain ⟨t, rfl, tokens⟩ := Option.map_eq_some_iff.mp statements
        have expanded := Statement.related_expand tokens.symm arch shift line
        have origin := s.raises_expand arch line
        dsimp only
        generalize s.expand arch line = first at expanded origin ⊢
        generalize t.expand arch (shift line) = second at expanded ⊢
        cases expanded with
        | ok instrs => exact ⟨rfl, .ok instrs⟩
        | @error fault _ equal =>
          refine ⟨rfl, .error ⟨rfl, congrArg Prod.fst tokens, ?_⟩⟩
          rw [Fault.shifted_of_ofLine (origin fault rfl)]
          exact equal.symm

end LineEffect

namespace Expansion

/-- Expansions with the same instructions and labels, on other lines. -/
structure Shifted (shift : Nat → Nat) (e f : Expansion) : Prop where
  arch : f.arch = e.arch
  instrs : List.Forall₂ (Instr.Shifted shift) e.instrs.toList f.instrs.toList
  labels : f.labels.toList = e.labels.toList.map (LabelDef.shifted shift)

namespace Shifted

variable {e f : Expansion}

theorem define (shifted : e.Shifted shift f) (line : Nat) (label : Option Text) :
    (e.define line label).Shifted shift (f.define (shift line) label) := by
  cases label with
  | none => exact shifted
  | some name =>
    have size : f.instrs.size = e.instrs.size := by simpa using shifted.instrs.length_eq.symm
    refine ⟨shifted.arch, shifted.instrs, ?_⟩
    simp [Expansion.define, shifted.labels, size, LabelDef.shifted]

theorem append (shifted : e.Shifted shift f) {instrs others : List Instr}
    (both : List.Forall₂ (Instr.Shifted shift) instrs others) : (e.append instrs).Shifted shift (f.append others) where
  arch := shifted.arch
  instrs := by simpa [Expansion.append] using List.rel_append shifted.instrs both
  labels := shifted.labels

end Shifted

theorem related_step {e f : Expansion} (shifted : e.Shifted shift f) {raw edited : Text}
    (same : SourceLine.scan edited = SourceLine.scan raw) (line : Nat) :
    Related (Diagnostic.Shifted shift) (Expansion.Shifted shift) (e.step (raw, line))
      (f.step (edited, shift line)) := by
  obtain ⟨label, effects⟩ := related_ofLine same e.arch shift line
  have defined := shifted.define line (ofLine e.arch line raw).label
  unfold step feed
  dsimp only
  rw [shifted.arch, label]
  generalize (ofLine e.arch line raw).instrs = first at effects ⊢
  generalize (ofLine e.arch (shift line) edited).instrs = second at effects ⊢
  cases effects with
  | ok instrs => exact .ok (defined.append instrs)
  | error faults => exact .error faults

end Expansion

namespace SourceLine

/-- Whether a line says anything: a label, a statement or a fault. -/
def speaks : Except Fault TokenLine → Bool
  | .ok ⟨none, none⟩ => false
  | _ => true

theorem scan_of_blanks {raw : Text} (blanks : Blanks (code raw)) : scan raw = .ok ⟨none, none⟩ := by
  have empty : trim (code raw) = [] := trim_append_blanks blanks []
  unfold scan read
  rw [empty]
  rfl

theorem read_of_not_speaks {raw : Text} (silent : speaks (scan raw) = false) : read raw = .ok ⟨none, none⟩ := by
  unfold scan at silent
  cases found : read raw with
  | error fault => simp [found, Functor.map, Except.map, speaks] at silent
  | ok line =>
    obtain ⟨label, statement⟩ := line
    cases label <;> cases statement <;> simp [found, Functor.map, Except.map, speaks, tokens] at silent ⊢

/-- What lines say, each with its number, without those that say nothing. -/
def said (start : Nat) (scans : List (Except Fault TokenLine)) : List (Except Fault TokenLine × Nat) :=
  (scans.zipIdx start).filter fun n => speaks n.1

theorem said_map_scan (start : Nat) (raws : List Text) :
    said start (raws.map scan) =
      ((raws.zipIdx start).filter fun n => speaks (scan n.1)).map fun n => (scan n.1, n.2) := by
  rw [said, List.zipIdx_map, List.filter_map]
  rfl

theorem said_append (start : Nat) (scans others : List (Except Fault TokenLine)) :
    said start (scans ++ others) = said start scans ++ said (start + scans.length) others := by
  simp only [said, List.zipIdx_append, List.filter_append]

theorem said_silent {raw : Text} (blanks : Blanks (code raw)) (start : Nat) : said start [scan raw] = [] := by
  simp [said, scan_of_blanks blanks, speaks]

theorem said_moved {scans : List (Except Fault TokenLine)} {start : Nat}
    (moved : ∀ n, start ≤ n → n < start + scans.length → shift n = n) :
    (said start scans).map (Prod.map id shift) = said start scans := by
  refine (List.map_congr_left fun n member => ?_).trans (List.map_id _)
  have inRange := List.mem_zipIdx (List.mem_filter.mp member).1
  exact Prod.ext rfl (moved n.2 inRange.1 inRange.2.1)

theorem said_succ (scans : List (Except Fault TokenLine)) (start : Nat) (later : ∀ n, start ≤ n → shift n = n + 1) :
    said (start + 1) scans = (said start scans).map (Prod.map id shift) := by
  unfold said
  rw [List.zipIdx_succ, List.filter_map]
  refine List.map_congr_left fun n member => ?_
  have inRange := List.mem_zipIdx (List.mem_filter.mp member).1
  exact Prod.ext rfl (later n.2 inRange.1).symm

end SourceLine

namespace Expansion

open SourceLine

theorem step_of_not_speaks {raw : Text} (silent : speaks (scan raw) = false) (e : Expansion) (line : Nat) :
    e.step (raw, line) = .ok e := by
  have effect : ofLine e.arch line raw = ⟨none, .ok []⟩ := by
    unfold ofLine
    rw [read_of_not_speaks silent]
  refine step_eq_ok_iff.mpr ?_
  rw [effect]
  simp [Accepted, emitted, LabelDef.ofEffects]

/-- Lines that say nothing leave the expansion as it is. -/
theorem foldlM_step_speaking (numbered : List (Text × Nat)) (e : Expansion) :
    numbered.foldlM step e = (numbered.filter fun n => speaks (scan n.1)).foldlM step e := by
  induction numbered generalizing e with
  | nil => rfl
  | cons n numbered ih =>
    cases silent : speaks (scan n.1) with
    | false =>
      rw [List.filter_cons_of_neg (by simp [silent]), List.foldlM_cons, step_of_not_speaks silent]
      exact ih e
    | true =>
      rw [List.filter_cons_of_pos (by simp [silent]), List.foldlM_cons, List.foldlM_cons]
      exact bind_congr ih

/-- Lines that say the same under other numbers are expanded to the same instructions and labels. -/
theorem related_foldlM {raws edited : List Text} {start other : Nat}
    (same : said other (edited.map scan) = (said start (raws.map scan)).map (Prod.map id shift)) {e f : Expansion}
    (shifted : e.Shifted shift f) :
    Related (Diagnostic.Shifted shift) (Expansion.Shifted shift) ((raws.zipIdx start).foldlM step e)
      ((edited.zipIdx other).foldlM step f) := by
  rw [foldlM_step_speaking, foldlM_step_speaking (edited.zipIdx other)]
  rw [said_map_scan, said_map_scan, List.map_map, ← List.forall₂_eq_eq_eq, List.forall₂_map_left_iff,
    List.forall₂_map_right_iff] at same
  refine Related.foldlM same.flip (fun e f x y shifted agree => ?_) shifted
  obtain ⟨scans, number⟩ := Prod.mk.inj agree
  obtain ⟨edited, line⟩ := y
  cases number
  exact related_step shifted scans x.2

end Expansion

namespace LabelTable

/-- The same labels, defined on other lines. -/
def Shifted (shift : Nat → Nat) (t u : LabelTable) : Prop := u.labels = t.labels.map (Label.shifted shift)

theorem Shifted.find?_eq {t u : LabelTable} (shifted : t.Shifted shift u) (name : Text) :
    u.find? name = (t.find? name).map (Label.shifted shift) := by
  unfold find?
  rw [shifted, List.find?_map]
  rfl

theorem Shifted.sameBindings {t u : LabelTable} (shifted : t.Shifted shift u) : u.SameBindings t := by
  unfold SameBindings
  rw [shifted, List.map_map]
  exact List.Perm.refl _

theorem related_define {t u : LabelTable} (shifted : t.Shifted shift u) (label : Label) :
    Related (Diagnostic.Shifted shift) (Shifted shift) (t.define label) (u.define (label.shifted shift)) := by
  have found := shifted.find?_eq label.name
  cases first : t.find? label.name with
  | none =>
    rw [first] at found
    rw [define_of_fresh first, @define_of_fresh u (label.shifted shift) found]
    exact .ok (congrArg (_ :: ·) shifted)
  | some other =>
    rw [first] at found
    rw [define_of_found first, @define_of_found u (label.shifted shift) _ found]
    exact .error ⟨rfl, rfl, rfl⟩

end LabelTable

namespace Program

theorem related_bindLabels (defs : List LabelDef) :
    Related (Diagnostic.Shifted shift) (LabelTable.Shifted shift) (bindLabels defs)
      (bindLabels (defs.map (LabelDef.shifted shift))) := by
  have items : List.Forall₂ (fun d e => e = LabelDef.shifted shift d) defs (defs.map (LabelDef.shifted shift)) :=
    List.forall₂_map_right_iff.mpr (List.forall₂_same.mpr fun _ _ => rfl)
  refine Related.foldlM items (fun t u d e shifted equal => ?_) rfl
  subst equal
  exact LabelTable.related_define shifted ⟨d.name, addressOf d.index, d.line⟩

/-- Programs with the same instructions and labels at the same addresses, on other lines. -/
structure Shifted (shift : Nat → Nat) (p q : Program) : Prop where
  arch : q.arch = p.arch
  instrs : List.Forall₂ (fun a b => a.toInstr.Shifted shift b.toInstr ∧ a.address = b.address) p.instrs q.instrs
  labels : p.labels.Shifted shift q.labels

theorem related_ofExpansion {e f : Expansion} (shifted : e.Shifted shift f) :
    Related (Diagnostic.Shifted shift) (Shifted shift) (ofExpansion e) (ofExpansion f) := by
  unfold ofExpansion
  rw [shifted.labels]
  refine (related_bindLabels e.labels.toList).bind fun t u labels => .ok ⟨shifted.arch, ?_, labels⟩
  exact forall₂_placeFrom shifted.instrs 0

theorem related_encode {p q : Program} (shifted : p.Shifted shift q) :
    Related (Diagnostic.Shifted shift) (List.Forall₂ Eq) p.encode q.encode := by
  unfold encode
  rw [shifted.arch]
  refine Related.mapM shifted.instrs fun a b both => ?_
  obtain ⟨⟨agrees, line⟩, address⟩ := both
  have addresses := fun name => (shifted.labels.sameBindings.address?_eq name).symm
  have same := PlacedInstr.encode_congr addresses p.arch ⟨agrees, address⟩
  have raises := PlacedInstr.raises_encode p.arch p.labels a
  unfold PlacedInstr.word
  rw [← same]
  cases encoded : a.encode p.arch p.labels with
  | ok word => exact .ok rfl
  | error fault =>
    refine .error ⟨line, agrees.mnemonic.symm, ?_⟩
    rw [Fault.shifted_of_ofEncoding (raises fault encoded)]

end Program

namespace Assembly

theorem related_ofProgram {p q : Program} (shifted : p.Shifted shift q) :
    Related (Diagnostic.Shifted shift) (fun a b => b.words = a.words ∧ b.labelEntries = a.labelEntries)
      (ofProgram p) (ofProgram q) := by
  refine (Program.related_encode shifted).bind fun words others same => .ok ⟨?_, ?_⟩
  · exact (List.forall₂_eq_eq_eq ▸ same : words = others).symm
  · exact shifted.labels.sameBindings.entries_eq

/-- Sources that say the same on other lines have the same outcome. -/
theorem related_of_said {source edited : Text} (same : SourceLine.said 1 ((lines edited).map SourceLine.scan) =
    (SourceLine.said 1 ((lines source).map SourceLine.scan)).map (Prod.map id shift)) (arch : Arch) :
    Related (Diagnostic.Shifted shift) (fun a b => b.words = a.words ∧ b.labelEntries = a.labelEntries)
      (ofSource arch source) (ofSource arch edited) := by
  have start : Expansion.Shifted shift { arch } { arch } := ⟨rfl, .nil, rfl⟩
  refine (Expansion.related_foldlM same start).bind fun e f expanded => ?_
  exact (Program.related_ofExpansion expanded).bind fun p q placed => related_ofProgram placed

end Assembly

end RiscAsm
