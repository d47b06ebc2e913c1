import RiscAsm.Assembly
import RiscAsm.Proofs.FirstErrors
import RiscAsm.Proofs.NumberedLines
import RiscAsm.Proofs.SourceText

namespace RiscAsm

namespace Fault

/-- Faults of a line, where a mnemonic is unknown only if it is neither a pseudo instruction nor in the table. -/
def OfLine (arch : Arch) : Fault → Prop
  | .invalidOperand _ => True
  | .unknownMnemonic mnemonic => Pseudo.ofMnemonic? arch mnemonic = none ∧ arch.format? mnemonic = none
  | _ => False

/-- Faults of encoding, where a label is undefined only if the table does not have it. -/
def OfEncoding (labels : LabelTable) : Fault → Prop
  | .invalidOperand _ | .unsupportedFormat _ => True
  | .undefinedLabel name => isIdentifier name ∧ labels.find? name = none
  | _ => False

end Fault

namespace Operand

variable {P : Fault → Prop} (operands : ∀ cause, P (.invalidOperand cause)) {arch : Arch} {token what shape : Text}
  {value : Int} {width : Nat} {ops : List Text}

include operands

theorem raises_immediate : Raises P (immediate token) := by
  unfold immediate
  split <;> simp [operands]

theorem raises_register : Raises P (register arch token) := by
  unfold register
  split <;> simp [operands]

theorem raises_memory : Raises P (memory arch token) := by
  unfold memory
  split
  · simp [operands]
  · dsimp only
    split <;> simp only [Raises.bind_iff, Raises.ok, Raises.pure, raises_register operands, raises_immediate operands,
      implies_true, and_self]

theorem raises_wrongCount {α : Type} {expected : Nat} : Raises P (wrongCount expected shape ops : Except Fault α) := by
  simp [wrongCount, operands]

theorem raises_wrongShape {α : Type} {accepted : List Text} : Raises P (wrongShape accepted : Except Fault α) := by
  simp [wrongShape, operands]

theorem raises_expectCount {expected : Nat} : Raises P (expectCount expected shape ops) := by
  unfold expectCount
  split <;> simp [raises_wrongCount operands]

theorem raises_one : Raises P (one shape ops) := by
  unfold one
  split <;> simp [raises_wrongCount operands]

theorem raises_two : Raises P (two shape ops) := by
  unfold two
  split <;> simp [raises_wrongCount operands]

theorem raises_three : Raises P (three shape ops) := by
  unfold three
  split <;> simp [raises_wrongCount operands]

theorem raises_signedField : Raises P (signedField value width what) := by
  unfold signedField
  dsimp only
  split <;> simp [operands]

theorem raises_unsignedField : Raises P (unsignedField value width what) := by
  unfold unsignedField
  dsimp only
  split <;> simp [operands]

end Operand

open Operand Text

theorem LabelTable.raises_target (labels : LabelTable) (token : Text) :
    Raises (Fault.OfEncoding labels) (labels.target token) := by
  unfold target
  split
  · simp
  · rename_i absent
    split
    · split <;> simp [Fault.OfEncoding]
    · split
      · rename_i identifier
        simpa [Fault.OfEncoding, identifier, address?] using absent
      · simp [Fault.OfEncoding]

variable {labels : LabelTable} {address : Word} {mnemonic : Text} {ops : List Text}

theorem Fault.ofEncoding_invalidOperand (labels : LabelTable) (cause : OperandFault) :
    OfEncoding labels (.invalidOperand cause) := trivial

namespace Mips

theorem raises_alignedTarget {token : Text} : Raises (Fault.OfEncoding labels) (alignedTarget labels token) := by
  refine Raises.bind_iff.mpr ⟨labels.raises_target token, fun target _ => ?_⟩
  split <;> simp [Fault.OfEncoding]

theorem raises_branchOffset {token : Text} : Raises (Fault.OfEncoding labels) (branchOffset labels address token) := by
  have operands := Fault.ofEncoding_invalidOperand labels
  simp only [branchOffset, Raises.bind_iff, raises_alignedTarget, raises_signedField operands, implies_true, and_self]

theorem raises_encode (format : Format) :
    Raises (Fault.OfEncoding labels) (encode labels address mnemonic ops format) := by
  have operands := Fault.ofEncoding_invalidOperand labels
  cases format with
  | jumpLinkRegister funct =>
    simp only [encode]
    split <;> simp only [Raises.bind_iff, Raises.pure, raises_register operands, raises_wrongShape operands,
      implies_true, and_self]
  | reserved => exact Raises.throw_iff.mpr trivial
  | aluImmediate opcode signed =>
    cases signed <;>
    simp only [encode, Bool.false_eq_true, if_true, if_false, Raises.bind_iff, Raises.pure, raises_three operands,
      raises_register operands, raises_immediate operands, raises_signedField operands, raises_unsignedField operands,
      implies_true, and_self]
  | _ =>
    simp only [encode, Raises.bind_iff, Raises.pure, raises_one operands, raises_two operands, raises_three operands,
      raises_register operands, raises_immediate operands, raises_memory operands, raises_signedField operands,
      raises_unsignedField operands, raises_alignedTarget, raises_branchOffset, implies_true, and_self]

end Mips

namespace RiscV

theorem raises_immediate12 {value : Int} : Raises (Fault.OfEncoding labels) (immediate12 value) := by
  have operands := Fault.ofEncoding_invalidOperand labels
  simp only [immediate12, Raises.bind_iff, Raises.pure, raises_signedField operands, implies_true, and_self]

theorem raises_pcRelative {width : Nat} {token : Text} :
    Raises (Fault.OfEncoding labels) (pcRelative labels address width token) := by
  have operands := Fault.ofEncoding_invalidOperand labels
  refine Raises.bind_iff.mpr ⟨labels.raises_target token, fun target _ => ?_⟩
  dsimp only
  split
  · simp only [Raises.bind_iff, Raises.pure, raises_signedField operands, implies_true, and_self]
  · exact Raises.throw_iff.mpr trivial

theorem raises_jumpOperands : Raises (Fault.OfEncoding labels) (jumpOperands ops) := by
  have operands := Fault.ofEncoding_invalidOperand labels
  unfold jumpOperands
  split
  case h_2 =>
    split <;> simp only [Raises.bind_iff, Raises.pure, raises_register operands, raises_memory operands, implies_true,
      and_self]
  all_goals
    simp only [Raises.bind_iff, Raises.pure, raises_register operands, raises_immediate operands,
      raises_wrongShape operands, implies_true, and_self]

theorem raises_encode (format : Format) :
    Raises (Fault.OfEncoding labels) (encode labels address mnemonic ops format) := by
  have operands := Fault.ofEncoding_invalidOperand labels
  cases format with
  | reserved => exact Raises.throw_iff.mpr trivial
  | jumpLink =>
    simp only [encode]
    split <;> simp only [Raises.bind_iff, Raises.pure, raises_register operands, raises_pcRelative,
      raises_wrongShape operands, implies_true, and_self]
  | _ =>
    simp only [encode, Raises.bind_iff, Raises.pure, raises_two operands, raises_three operands,
      raises_register operands, raises_immediate operands, raises_memory operands, raises_unsignedField operands,
      raises_immediate12, raises_pcRelative, raises_jumpOperands, implies_true, and_self]

end RiscV

theorem PlacedInstr.raises_encode (arch : Arch) (labels : LabelTable) (instr : PlacedInstr) :
    Raises (Fault.OfEncoding labels) (instr.encode arch labels) := by
  unfold encode
  dsimp only
  split
  · exact Mips.raises_encode _
  · exact RiscV.raises_encode _
  · exact Raises.error_iff.mpr trivial

namespace Pseudo

variable {arch : Arch} {text : Text} {ops : List Text} {pseudo : Pseudo}

theorem raises_rewrite : Raises (Fault.OfLine arch) (pseudo.rewrite arch text) := by
  have operands : ∀ cause, Fault.OfLine arch (.invalidOperand cause) := fun _ => trivial
  cases pseudo with
  | not =>
    cases arch <;>
    simp only [rewrite, Raises.bind_iff, Raises.pure, raises_two operands, implies_true, and_self]
  | li =>
    simp only [rewrite, Raises.bind_iff, raises_two operands, raises_immediate operands, true_and]
    intro _ _ value _
    split
    · exact Raises.pure _
    · exact Raises.throw_iff.mpr trivial
  | _ =>
    simp only [rewrite, Raises.bind_iff, Raises.pure, raises_expectCount operands, raises_one operands,
      raises_two operands, implies_true, and_self]

/-- A statement that a pseudo instruction with some operands stands for: its mnemonic is in the table, and what it
does not take over from these operands is a name or a number. -/
structure Emits (arch : Arch) (ops : List Text) (s : Statement) : Prop where
  listed : (arch.format? s.mnemonic).isSome
  tokens : ∃ tokens, s.operands = printed tokens ∧ ∀ token ∈ tokens, token ∈ ops ∨ Plain token

/-- What a pseudo instruction with some operands stands for: one or two statements. -/
structure StandsFor (arch : Arch) (ops : List Text) (statements : List Statement) : Prop where
  emits : ∀ s ∈ statements, Emits arch ops s
  length : statements.length = 1 ∨ statements.length = 2

theorem emits_statement {mnemonic : String} {tokens : List Text} (listed : (arch.format? mnemonic.toList).isSome)
    (written : ∀ token ∈ tokens, token ∈ ops ∨ Plain token) : Emits arch ops (statement mnemonic tokens) :=
  ⟨listed, tokens, rfl, written⟩

theorem Emits.alone {s : Statement} (emits : Emits arch ops s) : StandsFor arch ops [s] :=
  ⟨by simpa using emits, by simp⟩

theorem Emits.followed {s t : Statement} (emits : Emits arch ops s) (emitsToo : Emits arch ops t) :
    StandsFor arch ops [s, t] :=
  ⟨by simpa using ⟨emits, emitsToo⟩, by simp⟩

theorem standsFor_load {rd : Text} (written : rd ∈ ops) (arch : Arch) (value : Int) :
    StandsFor arch ops (load arch rd value) := by
  cases arch with
  | mips =>
    simp only [load, loadMips]
    split
    · refine (emits_statement (by decide) ?_).alone
      simp [written, Arch.plain_zeroRegister, Numeral.plain_signed]
    · have upper : Emits .mips ops (statement "lui" [rd, Numeral.hex (Word.bits (BitVec.ofInt 32 value) 31 16)]) :=
        emits_statement (by decide) (by simp [written, Numeral.plain_hex])
      split
      · exact upper.alone
      · exact upper.followed (emits_statement (by decide) (by simp [written, Numeral.plain_hex]))
  | riscv =>
    refine (emits_statement (by decide) ?_).followed (emits_statement (by decide) ?_)
    · simp [written, Numeral.plain_hex]
    · simp [written, Numeral.plain_signed]

/-- Pseudo instructions stand for one or two instructions of the table. -/
theorem standsFor_of_rewrite {statements : List Statement} (rewritten : pseudo.rewrite arch text = .ok statements) :
    StandsFor arch (Operand.split text) statements := by
  have zero := arch.plain_zeroRegister
  have zeroDigit : Plain ['0'] := by decide
  have minusOne : Plain ['-', '1'] := by decide
  cases pseudo with
  | li =>
    obtain ⟨⟨rd, token⟩, both, rewritten⟩ := bind_eq_ok.mp rewritten
    obtain ⟨value, _, rewritten⟩ := bind_eq_ok.mp rewritten
    split at rewritten
    · cases rewritten
      exact standsFor_load (by simp [two_eq_ok.mp both]) arch value
    · cases rewritten
  | nop =>
    obtain ⟨_, _, rewritten⟩ := bind_eq_ok.mp rewritten
    cases rewritten
    exact (emits_statement (by cases arch <;> decide) (by simp [zero, zeroDigit])).alone
  | j =>
    obtain ⟨target, alone, rewritten⟩ := bind_eq_ok.mp rewritten
    cases rewritten
    exact (emits_statement (by cases arch <;> decide) (by simp [zero, one_eq_ok.mp alone])).alone
  | mv | neg =>
    obtain ⟨⟨rd, rs⟩, both, rewritten⟩ := bind_eq_ok.mp rewritten
    cases rewritten
    exact (emits_statement (by cases arch <;> decide) (by simp [zero, two_eq_ok.mp both, zeroDigit])).alone
  | not =>
    obtain ⟨⟨rd, rs⟩, both, rewritten⟩ := bind_eq_ok.mp rewritten
    cases arch <;>
    · cases rewritten
      exact (emits_statement (by decide) (by simp [zero, two_eq_ok.mp both, minusOne])).alone

end Pseudo

/-- All statements that a pseudo instruction stands for become instructions, since they are in the table. -/
theorem Pseudo.StandsFor.exists_instrs {arch : Arch} {ops : List Text} {statements : List Statement}
    (standsFor : StandsFor arch ops statements) (line : Nat) (origin : Option Pseudo) :
    ∃ instrs, statements.mapM (Statement.instr arch line origin) = .ok instrs := by
  cases made : statements.mapM (Statement.instr arch line origin) with
  | ok instrs => exact ⟨instrs, rfl⟩
  | error fault =>
    obtain ⟨k, here, _⟩ := mapM_eq_error_iff.mp made
    rw [List.getElem?_map] at here
    obtain ⟨emitted, atK, failed⟩ := Option.map_eq_some_iff.mp here
    obtain ⟨format, found⟩ := Option.isSome_iff_exists.mp (standsFor.emits emitted (List.mem_of_getElem? atK)).listed
    simp [Statement.instr, found] at failed

/-- No pseudo instruction fails half-way, since all that it stands for is in the table. -/
theorem Statement.raises_expand (arch : Arch) (line : Nat) (s : Statement) :
    Raises (Fault.OfLine arch) (s.expand arch line) := by
  unfold expand
  split
  · rename_i pseudo known
    refine Raises.bind_iff.mpr ⟨Pseudo.raises_rewrite, fun statements rewritten fault failed => ?_⟩
    obtain ⟨instrs, made⟩ := (Pseudo.standsFor_of_rewrite rewritten).exists_instrs line (some pseudo)
    cases made.symm.trans failed
  · rename_i unknown
    refine Raises.bind_iff.mpr ⟨fun fault failed => ?_, fun direct _ => Raises.pure _⟩
    unfold instr at failed
    split at failed
    · cases failed
    · rename_i unlisted
      cases failed
      exact ⟨unknown, unlisted⟩

theorem SourceLine.raises_read (arch : Arch) (raw : Text) : Raises (Fault.OfLine arch) (SourceLine.read raw) := by
  unfold read
  dsimp only
  split
  · exact Raises.ok _
  · split
    · exact Raises.ok _
    · exact Raises.error_iff.mpr trivial

theorem LineEffect.fault_ofLine {arch : Arch} {line : Nat} {raw : Text} {d : Diagnostic}
    (failed : (ofLine arch line raw).instrs = .error d) : d.line = line ∧ d.fault.OfLine arch := by
  unfold ofLine at failed
  split at failed
  · rename_i fault read
    cases failed
    exact ⟨rfl, SourceLine.raises_read arch raw fault read⟩
  · cases failed
  · rename_i label s read
    split at failed
    · cases failed
    · rename_i fault expanded
      cases failed
      exact ⟨rfl, s.raises_expand arch line fault expanded⟩

end RiscAsm
