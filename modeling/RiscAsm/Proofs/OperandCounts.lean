import RiscAsm.Proofs.ShiftedLines

namespace RiscAsm

open Text

namespace Operand

/-- The fields of an operand text, which commas divide. -/
def fields (text : Text) : List Text := text.splitOn ','

/-- The fields that are not blank. -/
def filled (text : Text) : List Text := (fields text).filter fun field => !(trim field).isEmpty

/-- The number of operands that are written in a shape such as `rd, rs, rt`. -/
def arity (shape : Text) : Nat := (filled shape).length

/-- The fault of operands whose number is that of no accepted shape. It tells the shapes, and how many operands were
found if there is only one; a mnemonic without shapes has no encoding. -/
def refusal (mnemonic : Text) (found : Nat) : List Text → Fault
  | [] => .unsupportedFormat mnemonic
  | [shape] => .invalidOperand (.wrongCount (arity shape) shape found)
  | shapes => .invalidOperand (.wrongShape shapes)

end Operand

open Operand

/-- The operands that a format may be written with. -/
def Mips.Format.shapes : Mips.Format → List Text
  | alu _ => ["rd, rs, rt".toList]
  | shift _ => ["rd, rt, shamt".toList]
  | jumpRegister _ => ["rs".toList]
  | jumpLinkRegister _ => ["rd, rs".toList, "rs".toList]
  | aluImmediate _ _ => ["rt, rs, imm".toList]
  | loadUpper _ => ["rt, imm".toList]
  | memory _ => ["rt, off(rs)".toList]
  | branch _ => ["rs, rt, target".toList]
  | branchZero _ _ => ["rs, target".toList]
  | jump _ => ["target".toList]
  | reserved => []

def RiscV.Format.shapes : RiscV.Format → List Text
  | register _ _ => ["rd, rs1, rs2".toList]
  | aluImmediate _ => ["rd, rs1, imm".toList]
  | load _ => ["rd, off(rs1)".toList]
  | jumpLinkRegister => ["rd, off(rs1)".toList, "rd, rs1, off".toList, "rs1".toList]
  | store _ => ["rs2, off(rs1)".toList]
  | branch _ => ["rs1, rs2, target".toList]
  | upper _ => ["rd, imm20".toList]
  | jumpLink => ["rd, target".toList, "target".toList]
  | reserved => []

def Format.shapes : Format → List Text
  | mips format => format.shapes
  | riscv format => format.shapes

def Pseudo.shape : Pseudo → Text
  | nop => []
  | li => "rd, imm".toList
  | mv | not | neg => "rd, rs".toList
  | j => "target".toList

namespace Arch

/-- The operands that a mnemonic may be written with, as an instruction of the table or as a pseudo instruction. -/
def shapes (arch : Arch) (mnemonic : Text) : List Text :=
  ((Pseudo.ofMnemonic? arch mnemonic).map Pseudo.shape).toList ++
    ((arch.format? mnemonic).map Format.shapes).getD []

end Arch

namespace Statement

/-- A statement whose mnemonic is not written with as many operands as it has fields that are not blank. -/
def Miscounted (arch : Arch) (s : Statement) : Prop :=
  ∀ shape ∈ arch.shapes s.mnemonic, arity shape ≠ (filled s.operands).length

instance (arch : Arch) (s : Statement) : Decidable (s.Miscounted arch) :=
  inferInstanceAs (Decidable (∀ shape ∈ arch.shapes s.mnemonic, arity shape ≠ (filled s.operands).length))

/-- The fault of such a statement. -/
def refusal (arch : Arch) (s : Statement) : Fault :=
  let found := (filled s.operands).length
  match Pseudo.ofMnemonic? arch s.mnemonic, arch.format? s.mnemonic with
  | some pseudo, _ => .invalidOperand (.wrongCount (arity pseudo.shape) (text ⟨pseudo.mnemonic, pseudo.shape⟩) found)
  | none, some format => Operand.refusal s.mnemonic found format.shapes
  | none, none => .unknownMnemonic s.mnemonic

end Statement

variable {arch : Arch} {text : Text} {ops : List Text}

namespace Operand

theorem split_eq_map_filled (text : Text) : split text = (filled text).map trim := by
  rw [split, List.filter_map]
  rfl

theorem length_split (text : Text) : (split text).length = (filled text).length := by
  rw [split_eq_map_filled, List.length_map]

theorem filled_eq_fields (noBlank : ∀ field ∈ fields text, ¬ Blanks field) : filled text = fields text := by
  refine List.filter_eq_self.mpr fun field member => ?_
  simpa [trim_eq_nil_iff] using noBlank field member

section Counted

variable {α : Type} {accepted shape : Text} (other : arity accepted ≠ ops.length)

include other

theorem one_bind_of_length (counted : arity accepted = 1) (next : Text → Except Fault α) :
    (one shape ops >>= next) = .error (.invalidOperand (.wrongCount (arity accepted) shape ops.length)) := by
  rw [counted]
  unfold one
  split
  · exact absurd counted other
  · rfl

theorem two_bind_of_length (counted : arity accepted = 2) (next : Text × Text → Except Fault α) :
    (two shape ops >>= next) = .error (.invalidOperand (.wrongCount (arity accepted) shape ops.length)) := by
  rw [counted]
  unfold two
  split
  · exact absurd counted other
  · rfl

theorem three_bind_of_length (counted : arity accepted = 3) (next : Text × Text × Text → Except Fault α) :
    (three shape ops >>= next) = .error (.invalidOperand (.wrongCount (arity accepted) shape ops.length)) := by
  rw [counted]
  unfold three
  split
  · exact absurd counted other
  · rfl

theorem expectCount_bind_of_length (next : Unit → Except Fault α) :
    (expectCount (arity accepted) shape ops >>= next) =
      .error (.invalidOperand (.wrongCount (arity accepted) shape ops.length)) := by
  rw [expectCount, if_neg other.symm]
  rfl

end Counted

end Operand

variable {labels : LabelTable} {address : Word} {mnemonic : Text}

/-- Operands are counted before anything else is looked at. -/
theorem Mips.encode_of_length {format : Mips.Format} (other : ∀ shape ∈ format.shapes, arity shape ≠ ops.length) :
    encode labels address mnemonic ops format = .error (refusal mnemonic ops.length format.shapes) := by
  cases format with
  | alu funct | shift funct | aluImmediate opcode signed | branch opcode =>
    exact three_bind_of_length (other _ List.mem_cons_self) (by decide) _
  | loadUpper opcode | memory opcode | branchZero opcode rt =>
    exact two_bind_of_length (other _ List.mem_cons_self) (by decide) _
  | jumpRegister funct | jump opcode => exact one_bind_of_length (other _ List.mem_cons_self) (by decide) _
  | jumpLinkRegister funct =>
    obtain ⟨two, rest⟩ := List.forall_mem_cons.mp other
    have one := List.forall_mem_singleton.mp rest
    simp only [encode]
    split
    · exact absurd (by decide : arity "rs".toList = 1) one
    · exact absurd (by decide : arity "rd, rs".toList = 2) two
    · rfl
  | reserved => rfl

theorem RiscV.encode_of_length {format : RiscV.Format} (other : ∀ shape ∈ format.shapes, arity shape ≠ ops.length) :
    encode labels address mnemonic ops format = .error (refusal mnemonic ops.length format.shapes) := by
  cases format with
  | register funct3 funct7 | aluImmediate funct3 | branch funct3 =>
    exact three_bind_of_length (other _ List.mem_cons_self) (by decide) _
  | load funct3 | store funct3 | upper opcode => exact two_bind_of_length (other _ List.mem_cons_self) (by decide) _
  | jumpLinkRegister =>
    obtain ⟨two, rest⟩ := List.forall_mem_cons.mp other
    obtain ⟨three, rest⟩ := List.forall_mem_cons.mp rest
    have one := List.forall_mem_singleton.mp rest
    simp only [encode, jumpOperands]
    split
    · exact absurd (by decide : arity "rs1".toList = 1) one
    · exact absurd (by decide : arity "rd, off(rs1)".toList = 2) two
    · exact absurd (by decide : arity "rd, rs1, off".toList = 3) three
    · rfl
  | jumpLink =>
    obtain ⟨two, rest⟩ := List.forall_mem_cons.mp other
    have one := List.forall_mem_singleton.mp rest
    simp only [encode]
    split
    · exact absurd (by decide : arity "target".toList = 1) one
    · exact absurd (by decide : arity "rd, target".toList = 2) two
    · rfl
  | reserved => rfl

theorem Pseudo.rewrite_of_length {pseudo : Pseudo} (other : arity pseudo.shape ≠ (split text).length) :
    pseudo.rewrite arch text = .error (.invalidOperand (.wrongCount (arity pseudo.shape)
      (Statement.text ⟨pseudo.mnemonic, pseudo.shape⟩) (split text).length)) := by
  cases pseudo with
  | nop => exact expectCount_bind_of_length other _
  | j => exact one_bind_of_length other (by decide) _
  | li | mv | not | neg => exact two_bind_of_length other (by decide) _

/-- An instruction whose operands are of a wrong number is refused, wherever it is placed. -/
theorem PlacedInstr.encode_of_length {format : Format} (listed : arch.format? mnemonic = some format)
    {instr : PlacedInstr} (same : instr.mnemonic = mnemonic) (own : instr.format = format)
    (other : ∀ shape ∈ format.shapes, arity shape ≠ (filled instr.operands).length) :
    instr.encode arch labels = .error (refusal mnemonic (filled instr.operands).length format.shapes) := by
  have member := Arch.format?_eq_some.mp listed
  simp only [← length_split] at other ⊢
  subst same own
  unfold encode
  cases arch with
  | mips =>
    obtain ⟨entry, _, whole⟩ := List.mem_map.mp member
    have kind : instr.format = .mips entry.2 := (Prod.mk.inj whole).2.symm
    rw [kind] at other ⊢
    exact Mips.encode_of_length other
  | riscv =>
    obtain ⟨entry, _, whole⟩ := List.mem_map.mp member
    have kind : instr.format = .riscv entry.2 := (Prod.mk.inj whole).2.symm
    rw [kind] at other ⊢
    exact RiscV.encode_of_length other

/-- A statement whose operands are of a number that its mnemonic is not written with has a fault: a pseudo instruction
when it is expanded, any other one when it is encoded, whatever its line, its address and the labels are. -/
theorem Statement.refused {s : Statement} (miscounted : s.Miscounted arch) (line : Nat) :
    s.expand arch line = .error (s.refusal arch) ∨ ∃ instr, s.expand arch line = .ok [instr] ∧
      ∀ labels address, PlacedInstr.encode arch labels { instr with address } = .error (s.refusal arch) := by
  unfold expand refusal
  cases known : Pseudo.ofMnemonic? arch s.mnemonic with
  | some pseudo =>
    have counted : arity pseudo.shape ≠ (split s.operands).length := by
      rw [length_split]
      exact miscounted pseudo.shape (by simp [Arch.shapes, known])
    left
    dsimp only
    rw [Pseudo.rewrite_of_length counted, length_split]
    rfl
  | none =>
    unfold instr
    cases listed : arch.format? s.mnemonic with
    | none => exact Or.inl rfl
    | some format =>
      right
      refine ⟨_, rfl, fun labels address => ?_⟩
      refine PlacedInstr.encode_of_length listed rfl rfl fun shape member => miscounted shape ?_
      simp [Arch.shapes, known, listed, member]

/-- A line of a source has a statement, with or without a label before it. -/
def SourceLine.StatedAt (source : Text) (k : Nat) (s : Statement) : Prop :=
  ∃ raw label, (lines source)[k]? = some raw ∧ read raw = .ok ⟨label, some s⟩

/-- Lines with the same statement, but for fields that are blank and for blanks around the others. -/
inductive SourceLine.SameFilled : Text → Text → Prop
  | refl (raw : Text) : SameFilled raw raw
  | statement {raw edited : Text} {label : Option Text} {s t : Statement} (reads : read raw = .ok ⟨label, some s⟩)
    (readsToo : read edited = .ok ⟨label, some t⟩) (mnemonic : t.mnemonic = s.mnemonic)
    (operands : (filled t.operands).map trim = (filled s.operands).map trim) : SameFilled raw edited

variable {source edited : Text} {k : Nat} {s : Statement}

theorem SourceLine.SameFilled.scan_eq {raw edited : Text} (same : SameFilled raw edited) : scan edited = scan raw := by
  cases same with
  | refl => rfl
  | statement reads readsToo mnemonic operands =>
    unfold scan
    rw [reads, readsToo]
    simp [Functor.map, Except.map, tokens, Statement.tokens, split_eq_map_filled, mnemonic, operands]

/-- The line of such a statement has its fault, or adds one instruction that cannot be encoded. -/
theorem SourceLine.StatedAt.refused (stated : StatedAt source k s) (miscounted : s.Miscounted arch) :
    ∃ effect, (LineEffect.ofSource arch source)[k]? = some effect ∧
      ((∃ d, effect.instrs = .error d ∧ d.fault = s.refusal arch) ∨ ∃ instr, effect.instrs = .ok [instr] ∧
        ∀ labels address, PlacedInstr.encode arch labels { instr with address } = .error (s.refusal arch)) := by
  obtain ⟨raw, label, atK, reads⟩ := stated
  refine ⟨LineEffect.ofLine arch (k + 1) raw, by rw [LineEffect.ofSource_getElem?, atK, Option.map_some], ?_⟩
  unfold LineEffect.ofLine
  rw [reads]
  dsimp only
  rcases s.refused miscounted (k + 1) with failed | ⟨instr, expanded, refused⟩
  · rw [failed]
    exact Or.inl ⟨_, rfl, rfl⟩
  · rw [expanded]
    exact Or.inr ⟨instr, rfl, refused⟩

namespace Assembly

open LineEffect SourceLine

variable (stated : StatedAt source k s) (miscounted : s.Miscounted arch)

include stated miscounted

theorem ne_ok_of_miscounted (a : Assembly) : ofSource arch source ≠ .ok a := by
  intro assembled
  obtain ⟨effect, atK, outcome⟩ := stated.refused miscounted
  obtain ⟨e, expanded, _, _, placed, _⟩ := ofSource_eq_ok_iff.mp assembled
  obtain ⟨accepted, _, ofInstrs, _⟩ := Expansion.ofSource_eq_ok_iff.mp expanded
  have inSource := List.mem_of_getElem? atK
  rcases outcome with ⟨d, failed, _⟩ | ⟨instr, added, refused⟩
  · obtain ⟨instrs, expands⟩ := accepted _ inSource
    cases expands.symm.trans failed
  · have member : instr ∈ e.instrs.toList := by
      rw [ofInstrs]
      exact List.mem_flatMap.mpr ⟨_, inSource, by simp [emitted, added]⟩
    obtain ⟨i, atI⟩ := List.getElem?_of_mem member
    have there : a.program.instrs[i]? = some { instr with address := addressOf i } := by
      rw [placed, Program.place_getElem?, atI, Option.map_some]
    obtain ⟨_, _, word, _, encoded⟩ := encoded_of_getElem? assembled there
    cases encoded.symm.trans (refused _ _)

theorem fault_of_miscounted {d : Diagnostic} (failed : ofSource arch source = .error d) (here : d.line = k + 1) :
    d.fault = s.refusal arch ∨ ∃ name firstLine, d.fault = .duplicateLabel name firstLine := by
  obtain ⟨effect, atK, outcome⟩ := stated.refused miscounted
  cases firstFault_of_error failed with
  | @line l _ first =>
    have atL := first.here
    rw [List.getElem?_map] at atL
    obtain ⟨found, isFound, failed⟩ := Option.map_eq_some_iff.mp atL
    have line := (fault_of_getElem? isFound failed).1
    obtain rfl : l = k := by omega
    obtain rfl := Option.some.inj (isFound.symm.trans atK)
    rcases outcome with ⟨_, first, fault⟩ | ⟨_, added, _⟩
    · cases first.symm.trans failed
      exact Or.inl fault
    · cases added.symm.trans failed
  | label => exact Or.inr ⟨_, _, rfl⟩
  | @instruction labels instr fault accepted complete first =>
    obtain ⟨i, atIndex, _⟩ := first.first
    obtain ⟨l, found, isFound, inFound, line⟩ := exists_emitted_of_place atIndex
    have same : instr.line = k + 1 := here
    obtain rfl : l = k := by omega
    obtain rfl := Option.some.inj (isFound.symm.trans atK)
    rcases outcome with ⟨_, failed, _⟩ | ⟨only, added, refused⟩
    · simp [emitted, failed] at inFound
    · have alone : instr.toInstr = only := by simpa [emitted, added] using inFound
      have rejected := refused labels instr.address
      rw [← alone] at rejected
      exact Or.inl (Except.error.inj (first.rejected.symm.trans rejected))

end Assembly

namespace Arch

/-- An operand that a placeholder of a shape may stand for. -/
def sample (arch : Arch) (placeholder : Text) : Text :=
  if placeholder ∈ ["imm".toList, "imm20".toList, "shamt".toList, "target".toList, "off".toList] then "0".toList
  else if Operand.isMemory placeholder then "0(".toList ++ arch.zeroRegister ++ ")".toList
  else arch.zeroRegister

/-- A statement with operands in one of the shapes of its mnemonic. -/
def sampleStatement (arch : Arch) (mnemonic shape : Text) : Statement :=
  ⟨mnemonic, printed ((Operand.split shape).map arch.sample)⟩

/-- Is a sample of a mnemonic and a shape assembled, and does it have as many operands as the shape? -/
def samplePasses (arch : Arch) (mnemonic shape : Text) : Bool :=
  let s := arch.sampleStatement mnemonic shape
  (filled s.operands).length == arity shape && (Assembly.ofSource arch s.text).toBool

theorem samplePasses_pseudo {pseudo : Pseudo} (member : pseudo ∈ Pseudo.available arch) :
    arch.samplePasses pseudo.mnemonic pseudo.shape := by
  have all : ∀ arch, ∀ pseudo ∈ Pseudo.available arch, samplePasses arch pseudo.mnemonic pseudo.shape := by
    intro arch
    cases arch <;> decide +kernel
  exact all arch pseudo member

theorem samplePasses_format {entry : Text × Format} (member : entry ∈ arch.formats) :
    ∀ shape ∈ entry.2.shapes, arch.samplePasses entry.1 shape := by
  have all : ∀ arch, ∀ entry ∈ formats arch, ∀ shape ∈ entry.2.shapes, samplePasses arch entry.1 shape := by
    intro arch
    cases arch <;> decide +kernel
  exact all arch entry member

/-- No shape is listed in vain. -/
theorem exists_assembled_of_mem_shapes {mnemonic shape : Text} (member : shape ∈ arch.shapes mnemonic) :
    ∃ s : Statement, s.mnemonic = mnemonic ∧ (filled s.operands).length = arity shape ∧
      ∃ a, Assembly.ofSource arch s.text = .ok a := by
  have passes : arch.samplePasses mnemonic shape := by
    rcases List.mem_append.mp member with ofPseudo | ofFormat
    · obtain ⟨pseudo, found, rfl⟩ := Option.map_eq_some_iff.mp (Option.mem_toList.mp ofPseudo)
      have same : pseudo.mnemonic = mnemonic := by simpa using List.find?_some found
      exact same ▸ samplePasses_pseudo (List.mem_of_find?_eq_some found)
    · cases found : arch.format? mnemonic with
      | none => simp [found] at ofFormat
      | some format =>
        rw [found] at ofFormat
        exact samplePasses_format (Arch.format?_eq_some.mp found) shape ofFormat
  obtain ⟨counted, assembled⟩ := Bool.and_eq_true_iff.mp passes
  refine ⟨arch.sampleStatement mnemonic shape, rfl, beq_iff_eq.mp counted, ?_⟩
  cases outcome : Assembly.ofSource arch (arch.sampleStatement mnemonic shape).text with
  | ok a => exact ⟨a, rfl⟩
  | error d =>
    rw [outcome] at assembled
    cases assembled

end Arch

namespace Assembly

open SourceLine

theorem said_of_sameFilled {lines others : List Text} (same : List.Forall₂ SameFilled lines others) :
    others.map scan = lines.map scan := by
  induction same with
  | nil => rfl
  | cons first _ ih => rw [List.map_cons, List.map_cons, first.scan_eq, ih]

/-- Operands are counted before they are looked at, and a statement is refused if its mnemonic is not written with so
many, as an instruction or as a pseudo instruction; a source that holds it is not assembled. But only fields that are
not blank count as operands: one that is blank, as between two commas, is passed over, and the outcome is the same with
it as without it. -/
theorem counts_filled_fields (arch : Arch) :
    (∀ source k s, StatedAt source k s → s.Miscounted arch → ∃ d, ofSource arch source = .error d ∧
      (d.line = k + 1 → d.fault = s.refusal arch ∨ ∃ name firstLine, d.fault = .duplicateLabel name firstLine)) ∧
    (∀ text, (∀ field ∈ fields text, ¬ Blanks field) → filled text = fields text) ∧
    (∀ source edited, List.Forall₂ SameFilled (lines source) (lines edited) →
      Related (Diagnostic.Shifted id) (fun a b => b.words = a.words ∧ b.labelEntries = a.labelEntries)
        (ofSource arch source) (ofSource arch edited)) ∧
    ∀ mnemonic, ∀ shape ∈ arch.shapes mnemonic, ∃ s : Statement, s.mnemonic = mnemonic ∧
      (filled s.operands).length = arity shape ∧ ∃ a, ofSource arch s.text = .ok a := by
  refine ⟨fun source k s stated miscounted => ?_, fun text => filled_eq_fields, fun source edited same => ?_,
    fun mnemonic shape => Arch.exists_assembled_of_mem_shapes⟩
  · cases outcome : ofSource arch source with
    | ok a => exact absurd outcome (ne_ok_of_miscounted stated miscounted a)
    | error d => exact ⟨d, rfl, fault_of_miscounted stated miscounted outcome⟩
  · refine related_of_said ?_ arch
    rw [said_of_sameFilled same, Prod.map_id, List.map_id]

/-- One operand too many for the register jump, which is written with three shapes. -/
theorem counts_filled_fields_jump :
    ∃ d, ofSource .riscv "here: jalr x5,x6, 4 ,x7".toList = .error d ∧
      (d.line = 1 → d.fault = .invalidOperand (.wrongShape
        ["rd, off(rs1)".toList, "rd, rs1, off".toList, "rs1".toList]) ∨
          ∃ name firstLine, d.fault = .duplicateLabel name firstLine) := by
  have stated : StatedAt "here: jalr x5,x6, 4 ,x7".toList 0 ⟨"jalr".toList, "x5,x6, 4 ,x7".toList⟩ :=
    ⟨_, some "here".toList, rfl, by decide +kernel⟩
  have miscounted : Statement.Miscounted .riscv ⟨"jalr".toList, "x5,x6, 4 ,x7".toList⟩ := by decide +kernel
  exact (counts_filled_fields .riscv).1 _ _ _ stated miscounted

/-- A statement of four fields, where none with so many is accepted, is assembled if one of them is blank. -/
theorem blank_field_passes : ∃ s, StatedAt "add $t0,,$t1,$t2".toList 0 s ∧
    (∃ field ∈ fields s.operands, Blanks field) ∧
    (∀ shape ∈ Arch.mips.shapes s.mnemonic, arity shape ≠ (fields s.operands).length) ∧
    ∃ a, ofSource .mips "add $t0,,$t1,$t2".toList = .ok a ∧ a.words = [0x012a4020#32] := by
  refine ⟨⟨"add".toList, "$t0,,$t1,$t2".toList⟩, ⟨_, none, rfl, by decide +kernel⟩, ⟨[], by decide +kernel, nofun⟩,
    by decide +kernel, ?_⟩
  have evaluated : (ofSource .mips "add $t0,,$t1,$t2".toList).toOption.map Assembly.words = some [0x012a4020#32] := by
    decide +kernel
  obtain ⟨a, assembled, words⟩ := Option.map_eq_some_iff.mp evaluated
  exact ⟨a, toOption_eq_some.mp assembled, words⟩

end Assembly

end RiscAsm
