import RiscAsm.Proofs.NumberedLines
import RiscAsm.Proofs.ReachedLabels
import RiscAsm.Proofs.RepackedFields

namespace RiscAsm

namespace Format

/-- The word of an instruction that is moved by some words together with its target. Only a jump that holds the index
of its target changes. -/
def relocate (count : Nat) (word : Word) : Format → Word
  | .mips (.jump _) =>
    let jump := Mips.JType.unpack word
    Mips.JType.pack { jump with target := jump.target + count }
  | _ => word

/-- Whether the index that a jump holds fits its field after the move. -/
def Relocates (count : Nat) (word : Word) : Format → Prop
  | .mips (.jump _) => (Mips.JType.unpack word).target + count < 2 ^ 26
  | _ => True

theorem relocates_zero (word : Word) (format : Format) : format.Relocates 0 word := by
  unfold Relocates
  split
  · simp only [Mips.JType.unpack, Word.bits_eq]
    omega
  · trivial

theorem relocate_zero (word : Word) (format : Format) : format.relocate 0 word = word := by
  unfold relocate
  split
  · exact Mips.JType.pack_unpack word
  · rfl

end Format

theorem addressOf_add (index count : Nat) : addressOf (index + count) = addressOf index + addressOf count := by
  simp [addressOf, Nat.mul_add, BitVec.ofNat_add]

theorem toNat_add_addressOf {address : Word} {count : Nat} (inside : address.toNat + 4 * count < 2 ^ 32) :
    (address + addressOf count).toNat = address.toNat + 4 * count := by
  rw [BitVec.toNat_add, addressOf, BitVec.toNat_ofNat]
  omega

/-- Where a table has a target for a token, another has the one that lies some words after it. -/
def LabelTable.Moves (labels other : LabelTable) (count : Nat) (token : Text) : Prop :=
  ∀ target, labels.target token = .ok target →
    target.toNat + 4 * count < 2 ^ 32 ∧ other.target token = .ok (target + addressOf count)

namespace Meaning

def moved (count : Nat) (m : Meaning) : Meaning := { m with target := m.target.map (· + addressOf count) }

/-- Whether the target may be moved without leaving memory. -/
def Movable (count : Nat) (m : Meaning) : Prop := ∀ target, m.target = some target → target.toNat + 4 * count < 2 ^ 32

variable {arch : Arch} {labels other : LabelTable} {count : Nat}

theorem moved_append (a b : Meaning) : (a.append b).moved count = (a.moved count).append (b.moved count) := by
  cases a with
  | mk registers number target => cases target <;> rfl

theorem Movable.append {a b : Meaning} (first : a.Movable count) (rest : b.Movable count) :
    (a.append b).Movable count := by
  obtain ⟨registers, number, target⟩ := a
  cases target with
  | some _ => exact first
  | none => exact rest

theorem moved_of_target_none (count : Nat) {m : Meaning} (noTarget : m.target = none) :
    m.moved count = m ∧ m.Movable count := by
  obtain ⟨registers, number, target⟩ := m
  subst noTarget
  exact ⟨rfl, nofun⟩

end Meaning

variable {arch : Arch} {labels other : LabelTable} {count : Nat}

theorem Slot.read?_moved {slot : Slot} {token : Text} {m : Meaning}
    (moves : slot = .target → labels.Moves other count token) (read : slot.read? arch labels token = some m) :
    slot.read? arch other token = some (m.moved count) ∧ m.Movable count := by
  cases slot with
  | register | number | memory =>
    have plain := Meaning.moved_of_target_none count (Slot.target_of_read? (by decide) read)
    exact ⟨plain.1.symm ▸ read, plain.2⟩
  | target =>
    obtain ⟨target, found, rfl⟩ := Option.map_eq_some_iff.mp read
    obtain ⟨inside, moved⟩ := moves rfl target (toOption_eq_some.mp found)
    refine ⟨?_, fun _ same => Option.some.inj same ▸ inside⟩
    simp [Slot.read?, moved, Except.toOption, Meaning.moved]

/-- What tokens denote moves with the targets among them. -/
theorem Meaning.read?_moved {slots : List Slot} {tokens : List Text} {m : Meaning}
    (moves : ∀ p ∈ slots.zip tokens, p.1 = .target → labels.Moves other count p.2)
    (read : Meaning.read? arch labels slots tokens = some m) :
    Meaning.read? arch other slots tokens = some (m.moved count) ∧ m.Movable count := by
  induction slots generalizing tokens m with
  | nil =>
    obtain ⟨rfl, rfl⟩ := read?_nil_eq_some.mp read
    exact ⟨rfl, nofun⟩
  | cons slot slots ih =>
    obtain ⟨token, more, rfl, first, ofFirst, rest, ofRest, rfl⟩ := read?_cons_eq_some.mp read
    rw [List.zip_cons_cons, List.forall_mem_cons] at moves
    obtain ⟨firstMoved, firstInside⟩ := Slot.read?_moved moves.1 ofFirst
    obtain ⟨restMoved, restInside⟩ := ih moves.2 ofRest
    refine ⟨?_, firstInside.append restInside⟩
    rw [moved_append]
    exact read?_cons_eq_some.mpr ⟨token, more, rfl, _, firstMoved, _, restMoved, rfl⟩

theorem Meaning.length_of_read? {slots : List Slot} {tokens : List Text} {m : Meaning}
    (read : Meaning.read? arch labels slots tokens = some m) : tokens.length = slots.length := by
  induction slots generalizing tokens m with
  | nil => rw [(read?_nil_eq_some.mp read).1]; rfl
  | cons slot slots ih =>
    obtain ⟨token, more, rfl, first, ofFirst, rest, ofRest, rfl⟩ := read?_cons_eq_some.mp read
    exact congrArg Nat.succ (ih ofRest)

variable {ops : List Text} {m : Meaning} {address word again : Word}

/-- The one slot for a target, if a format has it, is the slot of the token that tells where to go. -/
theorem Mips.Format.targetToken?_of_slot {format : Mips.Format} (length : ops.length = format.slots.length) :
    ∀ p ∈ format.slots.zip ops, p.1 = .target → (Format.mips format).targetToken? ops = some p.2 := by
  cases format with
  | branch opcode =>
    obtain ⟨a, b, c, rfl⟩ := List.length_eq_three.mp length
    simp [slots, RiscAsm.Format.targetToken?]
  | branchZero opcode rt =>
    obtain ⟨a, b, rfl⟩ := List.length_eq_two.mp length
    simp [slots, RiscAsm.Format.targetToken?]
  | jump opcode =>
    obtain ⟨a, rfl⟩ := List.length_eq_one_iff.mp length
    simp [slots, RiscAsm.Format.targetToken?]
  | _ =>
    intro p member isTarget
    have inSlots := isTarget ▸ (List.of_mem_zip member).1
    simp [slots] at inSlots

theorem Mips.Format.read?_moved {format : Mips.Format}
    (moves : ∀ token, (Format.mips format).targetToken? ops = some token → labels.Moves other count token)
    (read : format.read? labels ops = some m) :
    format.read? other ops = some (m.moved count) ∧ m.Movable count := by
  unfold read? at read ⊢
  split at read
  · cases read
  · obtain ⟨linked, ofLinked, rfl⟩ := Option.map_eq_some_iff.mp read
    obtain ⟨moved, _⟩ : _ = some (linked.moved count) ∧ _ := Meaning.read?_moved (by simp) ofLinked
    exact ⟨Option.map_eq_some_iff.mpr ⟨_, moved, rfl⟩, nofun⟩
  · have slot := targetToken?_of_slot (Meaning.length_of_read? read)
    exact Meaning.read?_moved (fun p member isTarget => moves p.2 (slot p member isTarget)) read

theorem RiscV.Format.targetToken?_of_slot {format : RiscV.Format} (length : ops.length = format.slots.length) :
    ∀ p ∈ format.slots.zip ops, p.1 = .target → (Format.riscv format).targetToken? ops = some p.2 := by
  cases format with
  | branch funct3 =>
    obtain ⟨a, b, c, rfl⟩ := List.length_eq_three.mp length
    simp [slots, RiscAsm.Format.targetToken?]
  | jumpLink =>
    obtain ⟨a, b, rfl⟩ := List.length_eq_two.mp length
    simp [slots, RiscAsm.Format.targetToken?]
  | _ =>
    intro p member isTarget
    have inSlots := isTarget ▸ (List.of_mem_zip member).1
    simp [slots] at inSlots

theorem RiscV.Format.read?_moved {format : RiscV.Format}
    (moves : ∀ token, (Format.riscv format).targetToken? ops = some token → labels.Moves other count token)
    (read : format.read? labels ops = some m) :
    format.read? other ops = some (m.moved count) ∧ m.Movable count := by
  -- A register jump has no target, whatever form its operands have.
  have ofPlain : ∀ {slots tokens plain}, (∀ slot ∈ slots, slot ≠ Slot.target) →
      Meaning.read? .riscv labels slots tokens = some plain →
      Meaning.read? .riscv other slots tokens = some (plain.moved count) ∧ plain.Movable count := by
    intro slots tokens plain others ofPlain
    exact Meaning.read?_moved (fun p member isTarget => absurd isTarget (others _ (List.of_mem_zip member).1)) ofPlain
  unfold read? at read ⊢
  split at read
  · cases read
  · obtain ⟨plain, found, rfl⟩ := Option.map_eq_some_iff.mp read
    obtain ⟨moved, _⟩ := ofPlain (by simp) found
    exact ⟨Option.map_eq_some_iff.mpr ⟨_, moved, rfl⟩, nofun⟩
  · split at read
    · rename_i isMemory
      simpa only [isMemory, if_true] using ofPlain (by simp) read
    · rename_i isRegister
      obtain ⟨plain, found, rfl⟩ := Option.map_eq_some_iff.mp read
      obtain ⟨moved, inside⟩ := ofPlain (by simp) found
      simp only [isRegister]
      exact ⟨Option.map_eq_some_iff.mpr ⟨_, moved, rfl⟩, inside⟩
  · exact ofPlain (by simp) read
  · obtain ⟨plain, found, rfl⟩ := Option.map_eq_some_iff.mp read
    obtain ⟨moved, inside⟩ := Meaning.read?_moved (by simpa using moves _ rfl) found
    exact ⟨Option.map_eq_some_iff.mpr ⟨_, moved, rfl⟩, inside⟩
  · have slot := targetToken?_of_slot (Meaning.length_of_read? read)
    exact Meaning.read?_moved (fun p member isTarget => moves p.2 (slot p member isTarget)) read

theorem Format.read?_moved {format : Format}
    (moves : ∀ token, format.targetToken? ops = some token → labels.Moves other count token)
    (read : format.read? labels ops = some m) :
    format.read? other ops = some (m.moved count) ∧ m.Movable count := by
  cases format with
  | mips f => exact Mips.Format.read?_moved moves read
  | riscv f => exact RiscV.Format.read?_moved moves read

variable {target : Word}

theorem Mips.branchBits?_moved (source : address.toNat + 4 * count < 2 ^ 32)
    (goal : target.toNat + 4 * count < 2 ^ 32) :
    branchBits? (address + addressOf count) (target + addressOf count) = branchBits? address target := by
  have aligned : (target.toNat + 4 * count) % 4 = target.toNat % 4 := by omega
  have far : ((target.toNat + 4 * count) / 4 : Nat) - (((address.toNat + 4 * count) / 4 : Nat) + 1 : Int) =
      (target.toNat / 4 : Nat) - ((address.toNat / 4 : Nat) + 1) := by omega
  simp only [branchBits?, toNat_add_addressOf source, toNat_add_addressOf goal, aligned, far]

theorem RiscV.distance?_moved (width : Nat) (source : address.toNat + 4 * count < 2 ^ 32)
    (goal : target.toNat + 4 * count < 2 ^ 32) :
    distance? width (address + addressOf count) (target + addressOf count) = distance? width address target := by
  have far : ((target.toNat + 4 * count : Nat) : Int) - (address.toNat + 4 * count : Nat) =
      target.toNat - address.toNat := by omega
  simp only [distance?, toNat_add_addressOf source, toNat_add_addressOf goal, far]

theorem Mips.Format.word?_moved {format : Mips.Format} (source : address.toNat + 4 * count < 2 ^ 32)
    (movable : m.Movable count) (packed : format.word? address m = some word) :
    format.word? (address + addressOf count) (m.moved count) = some again ↔
      (Format.mips format).Relocates count word ∧ again = (Format.mips format).relocate count word := by
  have unchanged : ∀ {found : Option Word}, found = some word → (found = some again ↔ True ∧ again = word) := by
    rintro _ rfl
    simp [eq_comm]
  unfold word? at packed
  split at packed
  case h_8 opcode rs rt goal =>
    refine unchanged (Eq.trans ?_ packed)
    simp [Meaning.moved, word?, branchBits?_moved source (movable goal rfl)]
  case h_9 opcode rt rs goal =>
    refine unchanged (Eq.trans ?_ packed)
    simp [Meaning.moved, word?, branchBits?_moved source (movable goal rfl)]
  case h_10 opcode goal =>
    simp only [Option.ite_none_right_eq_some] at packed
    obtain ⟨aligned, packed⟩ := packed
    obtain ⟨index, fits, rfl⟩ := Option.map_eq_some_iff.mp packed
    obtain ⟨same, bound⟩ := unsignedBits?_eq_some.mp fits
    have toNat := toNat_add_addressOf (movable goal rfl)
    have alignedToo : (goal.toNat + 4 * count) % 4 = 0 := by omega
    have later : (goal.toNat + 4 * count) / 4 = index + count := by omega
    simp only [Meaning.moved, Option.map_some, word?, toNat, alignedToo, later, if_true, Option.map_eq_some_iff,
      unsignedBits?_eq_some, RiscAsm.Format.Relocates, RiscAsm.Format.relocate, JType.unpack_pack,
      Nat.mod_eq_of_lt bound]
    have whole : JType.pack ⟨opcode % 64, index + count⟩ = JType.pack ⟨opcode, index + count⟩ := by
      rw [BitVec.toNat_eq, JType.toNat_pack, JType.toNat_pack, Nat.mod_mod]
    rw [whole]
    constructor
    · rintro ⟨found, ⟨ofFound, fitsToo⟩, rfl⟩
      cases Int.ofNat.inj ofFound
      exact ⟨fitsToo, rfl⟩
    · rintro ⟨fitsToo, rfl⟩
      exact ⟨_, ⟨rfl, fitsToo⟩, rfl⟩
  case h_11 => cases packed
  all_goals exact unchanged packed

theorem RiscV.Format.word?_moved {format : RiscV.Format} (source : address.toNat + 4 * count < 2 ^ 32)
    (movable : m.Movable count) (packed : format.word? address m = some word) :
    format.word? (address + addressOf count) (m.moved count) = some word := by
  unfold word? at packed
  split at packed
  case h_6 funct3 rs1 rs2 goal =>
    simpa [Meaning.moved, word?, distance?_moved 13 source (movable goal rfl)] using packed
  case h_8 rd goal =>
    simpa [Meaning.moved, word?, distance?_moved 21 source (movable goal rfl)] using packed
  case h_9 => cases packed
  all_goals exact packed

theorem Format.word?_moved {format : Format} (source : address.toNat + 4 * count < 2 ^ 32)
    (movable : m.Movable count) (packed : format.word? address m = some word) :
    format.word? (address + addressOf count) (m.moved count) = some again ↔
      format.Relocates count word ∧ again = format.relocate count word := by
  cases format with
  | mips f => exact Mips.Format.word?_moved source movable packed
  | riscv f =>
    simp [word?, RiscV.Format.word?_moved source movable packed, Relocates, relocate, eq_comm]

namespace PlacedInstr

/-- The same instruction some words later, whatever line it then stands on. -/
def Moved (count : Nat) (instr later : PlacedInstr) : Prop :=
  ∃ line, later = ⟨instr.toInstr.onLine line, instr.address + addressOf count⟩

/-- An instruction that is moved together with its target keeps its word, but for the index of a jump. -/
theorem encode_moved {instr later : PlacedInstr} (own : instr.format.arch = arch) (moved : instr.Moved count later)
    (source : instr.address.toNat + 4 * count < 2 ^ 32)
    (moves : ∀ token, instr.format.targetToken? (Operand.split instr.operands) = some token →
      labels.Moves other count token)
    (encoded : instr.encode arch labels = .ok word) :
    later.encode arch other = .ok again ↔
      instr.format.Relocates count word ∧ again = instr.format.relocate count word := by
  obtain ⟨line, rfl⟩ := moved
  obtain ⟨m, read, packed⟩ := (encode_eq_ok_iff own).mp encoded
  obtain ⟨readToo, movable⟩ := Format.read?_moved moves read
  have ownToo : (PlacedInstr.mk (instr.toInstr.onLine line) (instr.address + addressOf count)).format.arch = arch := own
  rw [encode_eq_ok_iff ownToo, ← Format.word?_moved source movable packed]
  constructor
  · rintro ⟨_, readAgain, packedAgain⟩
    cases readToo.symm.trans readAgain
    exact packedAgain
  · exact fun packedAgain => ⟨_, readToo, packedAgain⟩

/-- Instructions that are moved together with their targets. -/
theorem forall₂_encode_moved {instrs laters : List PlacedInstr} {words agains : List Word}
    (moved : List.Forall₂ (Moved count) instrs laters)
    (encoded : List.Forall₂ (fun instr word => instr.encode arch labels = .ok word) instrs words)
    (own : ∀ instr ∈ instrs, instr.format.arch = arch)
    (source : ∀ instr ∈ instrs, instr.address.toNat + 4 * count < 2 ^ 32)
    (moves : ∀ instr ∈ instrs, ∀ token, instr.format.targetToken? (Operand.split instr.operands) = some token →
      labels.Moves other count token) :
    List.Forall₂ (fun later again => later.encode arch other = .ok again) laters agains ↔
      (∀ p ∈ instrs.zip words, p.1.format.Relocates count p.2) ∧
      agains = List.zipWith (fun instr word => instr.format.relocate count word) instrs words := by
  induction encoded generalizing laters agains with
  | nil => cases moved; simp
  | @cons instr word instrs words first rest ih =>
    cases moved with
    | @cons _ later _ laters firstMoved restMoved =>
      rw [List.forall_mem_cons] at own source moves
      have each : ∀ again, later.encode arch other = .ok again ↔
          instr.format.Relocates count word ∧ again = instr.format.relocate count word :=
        fun again => encode_moved own.1 firstMoved source.1 moves.1 first
      simp only [List.forall₂_cons_left_iff, each, ih restMoved own.2 source.2 moves.2, List.zip_cons_cons,
        List.forall_mem_cons, List.zipWith_cons_cons]
      constructor
      · rintro ⟨again, agains, ⟨fits, rfl⟩, ⟨others, rfl⟩, rfl⟩
        exact ⟨⟨fits, others⟩, rfl⟩
      · rintro ⟨⟨fits, others⟩, rfl⟩
        exact ⟨_, _, ⟨fits, rfl⟩, ⟨others, rfl⟩, rfl⟩

end PlacedInstr

end RiscAsm
