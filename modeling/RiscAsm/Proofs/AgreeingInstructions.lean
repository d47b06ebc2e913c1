import RiscAsm.Assembly
import RiscAsm.Proofs.CheckedResults

namespace RiscAsm

theorem LabelTable.target_congr {t other : LabelTable} (same : ∀ name, t.address? name = other.address? name) :
    t.target = other.target := by
  funext token
  simp only [target, same]

theorem Mips.encode_congr {labels other : LabelTable} (same : labels.target = other.target) (address : Word)
    (mnemonic : Text) (ops : List Text) (format : Mips.Format) :
    encode labels address mnemonic ops format = encode other address mnemonic ops format := by
  have aligned : alignedTarget labels = alignedTarget other := by
    funext token
    simp only [alignedTarget, same]
  cases format <;> simp only [encode, branchOffset, aligned]

theorem RiscV.encode_congr {labels other : LabelTable} (same : labels.target = other.target) (address : Word)
    (mnemonic : Text) (ops : List Text) (format : RiscV.Format) :
    encode labels address mnemonic ops format = encode other address mnemonic ops format := by
  cases format <;> simp only [encode, pcRelative, same]

/-- Instructions that differ in nothing that is encoded, but perhaps in their lines and origins, and in the blanks and
commas between their operands. -/
structure Instr.Agrees (a b : Instr) : Prop where
  mnemonic : a.mnemonic = b.mnemonic
  operands : Operand.split a.operands = Operand.split b.operands
  format : a.format = b.format

/-- Instructions at one address that are encoded alike. -/
structure PlacedInstr.Agrees (a b : PlacedInstr) : Prop where
  instr : a.toInstr.Agrees b.toInstr
  address : a.address = b.address

namespace PlacedInstr

theorem Agrees.refl (a : PlacedInstr) : a.Agrees a := ⟨⟨rfl, rfl, rfl⟩, rfl⟩

variable {labels other : LabelTable} (same : ∀ name, labels.address? name = other.address? name) (arch : Arch)

include same

/-- Encoding looks at nothing of a table but the addresses of its labels by name. -/
theorem encode_congr {a b : PlacedInstr} (agrees : a.Agrees b) : a.encode arch labels = b.encode arch other := by
  obtain ⟨⟨mnemonic, operands, format⟩, address⟩ := agrees
  have target := LabelTable.target_congr same
  unfold encode
  rw [mnemonic, operands, format, address]
  dsimp only
  split
  · exact Mips.encode_congr target _ _ _ _
  · exact RiscV.encode_congr target _ _ _ _
  · rfl

theorem encoded_of_agrees {instrs others : List PlacedInstr} {words : List Word}
    (agree : List.Forall₂ Agrees instrs others)
    (encoded : List.Forall₂ (fun instr word => instr.encode arch labels = .ok word) instrs words) :
    List.Forall₂ (fun instr word => instr.encode arch other = .ok word) others words := by
  induction agree generalizing words with
  | nil =>
    cases encoded
    exact .nil
  | cons first _ ih =>
    cases encoded with
    | cons ofFirst ofRest => exact .cons (encode_congr same arch first ▸ ofFirst) (ih ofRest)

end PlacedInstr

end RiscAsm
