import RiscAsm.Proofs.FirstFaults

namespace RiscAsm

open Text LineEffect

namespace SourceLine

/-- The name that a raw line defines, if the line can be read and has a label. -/
def labelOf? (raw : Text) : Option Text := (read raw).toOption.bind SourceLine.label

/-- The label of a raw line with its colon, without the statement after it. -/
def labelPart (raw : Text) : Text := ((labelOf? raw).map (· ++ [':'])).getD []

theorem isIdentifier_of_labelOf? {raw name : Text} (labelled : labelOf? raw = some name) : isIdentifier name := by
  obtain ⟨line, ofRead, ofLabel⟩ := Option.bind_eq_some_iff.mp labelled
  exact isIdentifier_of_read (toOption_eq_some.mp ofRead) ofLabel

theorem read_labelPart (raw : Text) : read (labelPart raw) = .ok ⟨labelOf? raw, none⟩ := by
  cases labelled : labelOf? raw with
  | none => simp only [labelPart, labelled]; rfl
  | some name => simpa [labelPart, labelled] using read_label (isIdentifier_of_labelOf? labelled)

end SourceLine

theorem Statement.Yields.length {arch : Arch} {line : Nat} {s : Statement} {instrs : List Instr}
    (yields : s.Yields arch line instrs) : instrs.length = 1 ∨ instrs.length = 2 := by
  cases yields with
  | direct => exact .inl rfl
  | rewritten _ rewritten each => exact each.length_eq ▸ (Pseudo.standsFor_of_rewrite rewritten).length

namespace LineEffect

/-- The label, the instructions and the fault that a line gives. One that cannot be read gives only a fault, and one
without a statement at most its label. A statement gives its instructions or a fault, never both. -/
inductive Gives (arch : Arch) (line : Nat) (raw : Text) : Option Text → List Instr → Option Diagnostic → Prop
  | unreadable {fault : Fault} (read : SourceLine.read raw = .error fault) :
      Gives arch line raw none [] (some ⟨line, [], Text.trim raw, fault⟩)
  | unstated {label : Option Text} (read : SourceLine.read raw = .ok ⟨label, none⟩) : Gives arch line raw label [] none
  | stated {label : Option Text} {s : Statement} {instrs : List Instr}
      (read : SourceLine.read raw = .ok ⟨label, some s⟩) (yields : s.Yields arch line instrs) :
      Gives arch line raw label instrs none
  | misstated {label : Option Text} {s : Statement} {fault : Fault}
      (read : SourceLine.read raw = .ok ⟨label, some s⟩) (failed : s.expand arch line = .error fault) :
      Gives arch line raw label [] (some ⟨line, s.mnemonic, s.operands, fault⟩)

theorem gives_ofLine (arch : Arch) (line : Nat) (raw : Text) :
    Gives arch line raw (ofLine arch line raw).label (ofLine arch line raw).emitted (ofLine arch line raw).fault? := by
  unfold ofLine
  cases read : SourceLine.read raw with
  | error fault => exact .unreadable read
  | ok source =>
    obtain ⟨label, statement⟩ := source
    cases statement with
    | none => exact .unstated read
    | some s =>
      dsimp only
      cases expanded : s.expand arch line with
      | ok instrs => exact .stated read (Statement.expand_eq_ok_iff.mp expanded)
      | error fault => exact .misstated read expanded

variable {arch : Arch} {line : Nat} {raw name : Text} {label : Option Text} {instrs : List Instr}
  {outcome : Option Diagnostic} {d : Diagnostic}

theorem Gives.label_eq (given : Gives arch line raw label instrs outcome) : label = SourceLine.labelOf? raw := by
  unfold SourceLine.labelOf?
  cases given with
  | unreadable read | unstated read | stated read | misstated read => rw [read]; rfl

theorem label_ofLine (arch : Arch) (line : Nat) (raw : Text) :
    (ofLine arch line raw).label = SourceLine.labelOf? raw := (gives_ofLine arch line raw).label_eq

theorem Gives.instrs_of_fault (given : Gives arch line raw label instrs (some d)) : instrs = [] := by
  cases given <;> rfl

theorem Gives.at_most_two (given : Gives arch line raw label instrs outcome) : instrs.length ≤ 2 := by
  cases given with
  | stated _ yields => rcases yields.length with one | two <;> omega
  | _ => exact Nat.zero_le 2

theorem Gives.one_or_two {written : Option Text} {s : Statement} (given : Gives arch line raw label instrs none)
    (read : SourceLine.read raw = .ok ⟨written, some s⟩) : instrs.length = 1 ∨ instrs.length = 2 := by
  cases given with
  | unstated unstated => cases unstated.symm.trans read
  | stated _ yields => exact yields.length

/-- A line with a label is at fault only through its statement. -/
theorem Gives.statement_of_fault (given : Gives arch line raw (some name) instrs (some d)) :
    ∃ s fault, SourceLine.read raw = .ok ⟨some name, some s⟩ ∧ s.expand arch line = .error fault ∧
      d = ⟨line, s.mnemonic, s.operands, fault⟩ := by
  cases given with
  | misstated read failed => exact ⟨_, _, read, failed, rfl⟩

end LineEffect

namespace Expansion

/-- Adds the instructions of statements one by one. Those before a fault stay. -/
def push (line : Nat) (origin : Option Pseudo) (e : Expansion) : List Statement → Expansion × Option Fault
  | [] => (e, none)
  | s :: statements =>
    match s.instr e.arch line origin with
    | .ok instr => (e.append [instr]).push line origin statements
    | .error fault => (e, some fault)

def pushStatement (line : Nat) (e : Expansion) (s : Statement) : Expansion × Option Fault :=
  match Pseudo.ofMnemonic? e.arch s.mnemonic with
  | none => e.push line none [s]
  | some pseudo =>
    match pseudo.rewrite e.arch s.operands with
    | .ok statements => e.push line (some pseudo) statements
    | .error fault => (e, some fault)

/-- Adds a label as soon as it is read, and then one instruction after another. -/
def pushLine (e : Expansion) (line : Nat) (raw : Text) : Expansion × Option Diagnostic :=
  match SourceLine.read raw with
  | .error fault => (e, some ⟨line, [], Text.trim raw, fault⟩)
  | .ok ⟨label, none⟩ => (e.define line label, none)
  | .ok ⟨label, some s⟩ =>
    let (next, fault?) := (e.define line label).pushStatement line s
    (next, fault?.map fun fault => ⟨line, s.mnemonic, s.operands, fault⟩)

variable {e : Expansion} {line : Nat} {raw : Text}

theorem append_nil : e.append [] = e := by simp [append]

theorem append_append (first second : List Instr) : (e.append first).append second = e.append (first ++ second) :=
  eq_iff.mpr (by simp [append])

theorem push_of_mapM {origin : Option Pseudo} {statements : List Statement} {instrs : List Instr}
    (made : statements.mapM (Statement.instr e.arch line origin) = .ok instrs) :
    e.push line origin statements = (e.append instrs, none) := by
  induction statements generalizing e instrs with
  | nil =>
    cases made
    simp [push, append_nil]
  | cons s statements ih =>
    rw [List.mapM_cons] at made
    obtain ⟨instr, first, made⟩ := bind_eq_ok.mp made
    obtain ⟨later, rest, whole⟩ := bind_eq_ok.mp made
    cases whole
    unfold push
    rw [first]
    dsimp only
    rw [ih (e := e.append [instr]) rest, append_append]
    rfl

/-- A statement is added as a whole or not at all. -/
theorem pushStatement_eq (s : Statement) :
    e.pushStatement line s =
      match s.expand e.arch line with
      | .ok instrs => (e.append instrs, none)
      | .error fault => (e, some fault) := by
  unfold pushStatement Statement.expand
  cases Pseudo.ofMnemonic? e.arch s.mnemonic with
  | none =>
    dsimp only
    cases made : s.instr e.arch line none with
    | error fault => simp [push, made, bind, Except.bind]
    | ok instr => simp [push, made, bind, Except.bind, pure, Except.pure]
  | some pseudo =>
    dsimp only
    cases rewritten : pseudo.rewrite e.arch s.operands with
    | error fault => rfl
    | ok statements =>
      obtain ⟨instrs, made⟩ := (Pseudo.standsFor_of_rewrite rewritten).exists_instrs line (some pseudo)
      simp [made, push_of_mapM made, bind, Except.bind]

/-- Adding the label first and the instructions one by one never leaves half of a statement behind. -/
theorem pushLine_eq_feed (e : Expansion) (line : Nat) (raw : Text) : e.pushLine line raw = e.feed line raw := by
  unfold pushLine feed ofLine
  cases SourceLine.read raw with
  | error fault => rfl
  | ok source =>
    obtain ⟨label, statement⟩ := source
    have arch : (e.define line label).arch = e.arch := by cases label <;> rfl
    cases statement with
    | none => simp [append_nil]
    | some s =>
      simp only [pushStatement_eq, arch]
      cases s.expand e.arch line <;> rfl

theorem feed_eq (e : Expansion) (line : Nat) (raw : Text) :
    e.feed line raw = ((e.define line (SourceLine.labelOf? raw)).append (ofLine e.arch line raw).emitted,
      (ofLine e.arch line raw).fault?) := by
  unfold feed emitted fault?
  rw [← label_ofLine e.arch line raw]
  cases found : (ofLine e.arch line raw).instrs <;> simp only [found, append_nil]

/-- The state after lines that are fed one after another, whether or not they are at fault. -/
def feedAll (e : Expansion) (calls : List (Nat × Text)) : Expansion :=
  calls.foldl (fun e call => (e.feed call.1 call.2).1) e

def session (arch : Arch) (calls : List (Nat × Text)) : Expansion := feedAll { arch } calls

/-- The same calls, where only the label is left of each line at fault. -/
def withoutFaults (e : Expansion) : List (Nat × Text) → List (Nat × Text)
  | [] => []
  | (line, raw) :: calls =>
    match e.feed line raw with
    | (next, none) => (line, raw) :: next.withoutFaults calls
    | (next, some _) => (line, SourceLine.labelPart raw) :: next.withoutFaults calls

/-- What one line adds to a state: the label and the instructions that its text gives, and nothing else. A line that
can be read adds its label, if it has one, also when its statement is at fault, and the label counts the instructions
before those of its own line. -/
structure Adds (e : Expansion) (line : Nat) (raw : Text) : Prop where
  instrs_eq : (e.feed line raw).1.instrs.toList = e.instrs.toList ++ (ofLine e.arch line raw).emitted
  labels_eq : (e.feed line raw).1.labels.toList =
    e.labels.toList ++ ((SourceLine.labelOf? raw).map fun name => ⟨name, e.instrs.size, line⟩).toList
  gives : Gives e.arch line raw (SourceLine.labelOf? raw) (ofLine e.arch line raw).emitted (e.feed line raw).2
  none_of_fault : ∀ d, (e.feed line raw).2 = some d → (ofLine e.arch line raw).emitted = []
  at_most_two : (ofLine e.arch line raw).emitted.length ≤ 2
  one_or_two : ∀ label s, (e.feed line raw).2 = none → SourceLine.read raw = .ok ⟨label, some s⟩ →
    (ofLine e.arch line raw).emitted.length = 1 ∨ (ofLine e.arch line raw).emitted.length = 2
  fault_of_statement : ∀ d name, (e.feed line raw).2 = some d → SourceLine.labelOf? raw = some name →
    ∃ s fault, SourceLine.read raw = .ok ⟨some name, some s⟩ ∧ s.expand e.arch line = .error fault ∧
      d = ⟨line, s.mnemonic, s.operands, fault⟩

/-- What holds of the state of a session at every point. -/
structure Sound (arch : Arch) (e : Expansion) : Prop where
  arch_eq : e.arch = arch
  ordered : e.labels.toList.Pairwise fun a b => a.index ≤ b.index
  bounded : ∀ d ∈ e.labels.toList, d.index ≤ e.instrs.size
  listed : ∀ i ∈ e.instrs.toList, arch.format? i.mnemonic = some i.format
  direct : ∀ i ∈ e.instrs.toList, Pseudo.ofMnemonic? arch i.mnemonic = none

variable {arch : Arch}

theorem adds (e : Expansion) (line : Nat) (raw : Text) : e.Adds line raw := by
  have state := congrArg Prod.fst (e.feed_eq line raw)
  have given := gives_ofLine e.arch line raw
  rw [label_ofLine, ← e.feed_fault line raw] at given
  constructor
  case instrs_eq => rw [state]; cases SourceLine.labelOf? raw <;> simp [append, define]
  case labels_eq => rw [state]; cases SourceLine.labelOf? raw <;> simp [append, define]
  case gives => exact given
  case none_of_fault =>
    intro d failed
    rw [failed] at given
    exact given.instrs_of_fault
  case at_most_two => exact given.at_most_two
  case one_or_two =>
    intro label s accepted
    rw [accepted] at given
    exact given.one_or_two
  case fault_of_statement =>
    intro d name failed labelled
    rw [failed, labelled] at given
    exact given.statement_of_fault

theorem feed_arch (e : Expansion) (line : Nat) (raw : Text) : (e.feed line raw).1.arch = e.arch := by
  rw [feed_eq]
  cases SourceLine.labelOf? raw <;> rfl

theorem Sound.feed (sound : e.Sound arch) (line : Nat) (raw : Text) : (e.feed line raw).1.Sound arch := by
  have added := e.adds line raw
  have size : (e.feed line raw).1.instrs.size = e.instrs.size + (ofLine e.arch line raw).emitted.length := by
    rw [← Array.length_toList, added.instrs_eq, List.length_append, Array.length_toList]
  have here : ∀ d ∈ ((SourceLine.labelOf? raw).map fun name => (⟨name, e.instrs.size, line⟩ : LabelDef)).toList,
      d.index = e.instrs.size := by
    intro d member
    obtain ⟨name, _, rfl⟩ := Option.map_eq_some_iff.mp (Option.mem_toList.mp member)
    rfl
  have listed : ∀ i ∈ (ofLine e.arch line raw).emitted, (i.mnemonic, i.format) ∈ arch.formats :=
    fun i member => sound.arch_eq ▸ listed_of_mem_emitted member
  constructor
  case arch_eq => rw [feed_arch, sound.arch_eq]
  case ordered =>
    rw [added.labels_eq, List.pairwise_append]
    refine ⟨sound.ordered, by cases SourceLine.labelOf? raw <;> simp, ?_⟩
    intro a before b member
    rw [here b member]
    exact sound.bounded a before
  case bounded =>
    intro d member
    rw [added.labels_eq] at member
    rw [size]
    rcases List.mem_append.mp member with before | now
    · exact (sound.bounded d before).trans (Nat.le_add_right _ _)
    · exact here d now ▸ Nat.le_add_right _ _
  case listed =>
    intro i member
    rw [added.instrs_eq] at member
    rcases List.mem_append.mp member with before | now
    · exact sound.listed i before
    · exact Arch.format?_eq_some.mpr (listed i now)
  case direct =>
    intro i member
    rw [added.instrs_eq] at member
    rcases List.mem_append.mp member with before | now
    · exact sound.direct i before
    · exact (Arch.mnemonic_of_mem_formats (listed i now)).2.2

theorem feedAll_append (e : Expansion) (calls more : List (Nat × Text)) :
    e.feedAll (calls ++ more) = (e.feedAll calls).feedAll more := List.foldl_append

theorem Sound.feedAll (sound : e.Sound arch) (calls : List (Nat × Text)) : (e.feedAll calls).Sound arch := by
  induction calls generalizing e with
  | nil => exact sound
  | cons call calls ih => exact ih (sound.feed call.1 call.2)

theorem sound_empty (arch : Arch) : Sound arch { arch } := by
  constructor <;> simp

/-- Nothing that a session holds is ever changed or taken away. -/
theorem prefix_feedAll (e : Expansion) (calls : List (Nat × Text)) :
    e.instrs.toList <+: (e.feedAll calls).instrs.toList ∧ e.labels.toList <+: (e.feedAll calls).labels.toList := by
  induction calls generalizing e with
  | nil => exact ⟨List.prefix_rfl, List.prefix_rfl⟩
  | cons call calls ih =>
    have added := e.adds call.1 call.2
    obtain ⟨instrs, labels⟩ := ih (e.feed call.1 call.2).1
    exact ⟨List.IsPrefix.trans ⟨_, added.instrs_eq.symm⟩ instrs, List.IsPrefix.trans ⟨_, added.labels_eq.symm⟩ labels⟩

theorem feed_labelPart {d : Diagnostic} (failed : (e.feed line raw).2 = some d) :
    (e.feed line (SourceLine.labelPart raw)).1 = (e.feed line raw).1 := by
  have label : SourceLine.labelOf? (SourceLine.labelPart raw) = SourceLine.labelOf? raw := by
    rw [SourceLine.labelOf?, SourceLine.read_labelPart]
    rfl
  have nothing : (ofLine e.arch line (SourceLine.labelPart raw)).emitted = [] := by
    unfold ofLine
    rw [SourceLine.read_labelPart]
    rfl
  rw [feed_eq, feed_eq, label, nothing, (e.adds line raw).none_of_fault d failed]

theorem feedAll_withoutFaults (e : Expansion) (calls : List (Nat × Text)) :
    e.feedAll (e.withoutFaults calls) = e.feedAll calls := by
  induction calls generalizing e with
  | nil => rfl
  | cons call calls ih =>
    obtain ⟨line, raw⟩ := call
    cases fed : e.feed line raw with
    | mk next fault? =>
      have whole : e.feedAll ((line, raw) :: calls) = next.feedAll calls := by simp [feedAll, fed]
      rw [whole, ← ih next]
      cases fault? with
      | none => simp [withoutFaults, fed, feedAll]
      | some d =>
        have failed : (e.feed line raw).2 = some d := by rw [fed]
        have same := feed_labelPart failed
        rw [fed] at same
        simp [withoutFaults, fed, feedAll, same]

/-- Sessions go on after faults and keep their invariant. A line adds its label and its own instructions, of which there
are at most two. One at fault adds at most its label and never a part of its statement, so that the state is the one
without that statement; everything else that was fed stays as it is. -/
theorem session_keeps (arch : Arch) (calls : List (Nat × Text)) :
    (session arch calls).Sound arch ∧
    session arch (withoutFaults { arch } calls) = session arch calls ∧
    (∀ more, (session arch calls).instrs.toList <+: (session arch (calls ++ more)).instrs.toList ∧
      (session arch calls).labels.toList <+: (session arch (calls ++ more)).labels.toList) ∧
    ∀ line raw, (session arch calls).pushLine line raw = (session arch calls).feed line raw ∧
      session arch (calls ++ [(line, raw)]) = ((session arch calls).feed line raw).1 ∧
      (session arch calls).Adds line raw := by
  refine ⟨(sound_empty arch).feedAll calls, feedAll_withoutFaults _ calls, fun more => ?_, fun line raw => ?_⟩
  · rw [session, session, feedAll_append]
    exact prefix_feedAll _ more
  · refine ⟨pushLine_eq_feed _ line raw, ?_, adds _ line raw⟩
    rw [session, feedAll_append]
    rfl

/-- A line with two instructions, one at fault of which the label stays, and one with one instruction. The session is
the one where the second line is only its label. -/
theorem session_keeps_after_fault :
    let load : Nat × Text := (1, "a: li $t0, 0x12345678".toList)
    let fails : Nat × Text := (2, "b: frob $t1".toList)
    let plain : Nat × Text := (3, "c: add $t0, $t1, $t2".toList)
    let lui : Instr := ⟨"lui".toList, "$t0, 0x1234".toList, .mips (.loadUpper 0x0f), 1, some .li⟩
    let ori : Instr := ⟨"ori".toList, "$t0, $t0, 0x5678".toList, .mips (.aluImmediate 0x0d false), 1, some .li⟩
    let add : Instr := ⟨"add".toList, "$t0, $t1, $t2".toList, .mips (.alu 0x20), 3, none⟩
    (session .mips [load]).instrs.toList = [lui, ori] ∧
    ((session .mips [load]).feed 2 "b: frob $t1".toList).2 =
      some ⟨2, "frob".toList, "$t1".toList, .unknownMnemonic "frob".toList⟩ ∧
    (session .mips [load, fails]).instrs.toList = [lui, ori] ∧
    (session .mips [load, fails, plain]).instrs.toList = [lui, ori, add] ∧
    (session .mips [load, fails, plain]).labels.toList =
      [⟨"a".toList, 0, 1⟩, ⟨"b".toList, 2, 2⟩, ⟨"c".toList, 2, 3⟩] ∧
    session .mips [load, (2, "b:".toList), plain] = session .mips [load, fails, plain] := by
  intro load fails plain lui ori add
  obtain ⟨-, loaded, addsTwo⟩ := (session_keeps .mips []).2.2.2 load.1 load.2
  obtain ⟨-, failed, addsLabel⟩ := (session_keeps .mips [load]).2.2.2 fails.1 fails.2
  obtain ⟨-, wentOn, addsOne⟩ := (session_keeps .mips [load, fails]).2.2.2 plain.1 plain.2
  obtain ⟨-, withoutFault, -, -⟩ := session_keeps .mips [load, fails, plain]
  rw [List.nil_append] at loaded
  rw [List.singleton_append] at failed
  rw [List.cons_append, List.singleton_append] at wentOn
  have two : (session .mips [load]).instrs.toList = [lui, ori] := by
    have given : (ofLine .mips load.1 load.2).emitted = [lui, ori] := by decide +kernel
    rw [loaded, addsTwo.instrs_eq]
    exact given
  have reported : ((session .mips [load]).feed fails.1 fails.2).2 =
      some ⟨2, "frob".toList, "$t1".toList, .unknownMnemonic "frob".toList⟩ := by decide +kernel
  have still : (session .mips [load, fails]).instrs.toList = [lui, ori] := by
    rw [failed, addsLabel.instrs_eq, addsLabel.none_of_fault _ reported, two, List.append_nil]
  have three : (session .mips [load, fails, plain]).instrs.toList = [lui, ori, add] := by
    have given : (ofLine (session .mips [load, fails]).arch plain.1 plain.2).emitted = [add] := by decide +kernel
    rw [wentOn, addsOne.instrs_eq, still, given, List.cons_append, List.singleton_append]
  have labels : (session .mips [load, fails, plain]).labels.toList =
      [⟨"a".toList, 0, 1⟩, ⟨"b".toList, 2, 2⟩, ⟨"c".toList, 2, 3⟩] := by
    rw [wentOn, addsOne.labels_eq, failed, addsLabel.labels_eq, loaded, addsTwo.labels_eq]
    decide +kernel
  have replaced : withoutFaults { arch := .mips } [load, fails, plain] = [load, (2, "b:".toList), plain] := by
    decide +kernel
  rw [replaced] at withoutFault
  exact ⟨two, reported, still, three, labels, withoutFault⟩

end Expansion

end RiscAsm
