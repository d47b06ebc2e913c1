import RiscAsm.Listing
import RiscAsm.Proofs.AgreeingInstructions
import RiscAsm.Proofs.LabelBindings
import RiscAsm.Proofs.OperandCharacters

namespace RiscAsm

open Text LineEffect

namespace Assembly

/-- One line for each instruction, after one line for each label that is bound to its address, and at last the labels
of the end. -/
def canonicalLines (a : Assembly) (order : List Label) : List Text :=
  a.program.instrs.flatMap (fun instr =>
    labelLines order instr.address ++ [Statement.text ⟨instr.mnemonic, instr.operands⟩]) ++
    labelLines order a.program.endAddress

/-- A source without pseudo instructions, with the labels of one address in a given order. -/
def canonicalSource (a : Assembly) (order : List Label) : Text := Text.ofLines (a.canonicalLines order)

end Assembly

/-- The same instruction, written directly. -/
structure Instr.Restates (a b : Instr) : Prop where
  mnemonic : b.mnemonic = a.mnemonic
  operands : b.operands = a.operands
  format : b.format = a.format
  origin : b.origin = none

/-- What lines define and add when they stand after a number of instructions, wherever their numbers start. -/
structure Writes (arch : Arch) (index : Nat) (raws : List Text) (labels : List (Text × Nat)) (instrs : List Instr) :
    Prop where
  areLines : ∀ raw ∈ raws, IsLine raw
  accepted : ∀ start, ∀ effect ∈ ofLines arch start raws, effect.Accepted
  adds : ∀ start, List.Forall₂ Instr.Restates instrs ((ofLines arch start raws).flatMap emitted)
  defines : ∀ start line, (LabelDef.ofEffects index line (ofLines arch start raws)).map (fun d => (d.name, d.index)) =
    labels

namespace Writes

variable {arch : Arch} {index : Nat} {raws more : List Text} {labels others : List (Text × Nat)}
  {instrs later : List Instr}

theorem nil : Writes arch index [] [] [] where
  areLines := nofun
  accepted _ := nofun
  adds _ := .nil
  defines _ _ := rfl

theorem append (first : Writes arch index raws labels instrs)
    (second : Writes arch (index + instrs.length) more others later) :
    Writes arch index (raws ++ more) (labels ++ others) (instrs ++ later) where
  areLines := List.forall_mem_append.mpr ⟨first.areLines, second.areLines⟩
  accepted start := by
    rw [ofLines_append]
    exact List.forall_mem_append.mpr ⟨first.accepted start, second.accepted _⟩
  adds start := by
    rw [ofLines_append, List.flatMap_append]
    exact List.rel_append (first.adds start) (second.adds _)
  defines start line := by
    have size : ((ofLines arch start raws).map LineEffect.size).sum = instrs.length := by
      rw [← length_flatMap_emitted, (first.adds start).length_eq]
    rw [ofLines_append, LabelDef.ofEffects_append, List.map_append, first.defines, size, second.defines]

theorem label {name : Text} (identifier : isIdentifier name) (arch : Arch) (index : Nat) :
    Writes arch index [name ++ [':']] [(name, index)] [] := by
  have effect : ∀ start, ofLines arch start [name ++ [':']] = [⟨some name, .ok []⟩] := by
    intro start
    simp only [ofLines_cons, ofLine, SourceLine.read_label identifier]
    rfl
  refine ⟨by simpa using isLine_label identifier, ?_, ?_, ?_⟩ <;> simp [effect, Accepted, emitted, LabelDef.ofEffects]

theorem labels_at {names : List Text} (identifiers : ∀ name ∈ names, isIdentifier name) (arch : Arch) (index : Nat) :
    Writes arch index (names.map (· ++ [':'])) (names.map (·, index)) [] := by
  induction names with
  | nil => exact nil
  | cons name names ih =>
    obtain ⟨first, rest⟩ := List.forall_mem_cons.mp identifiers
    exact (label first arch index).append (ih rest)

theorem statement {instr : Instr} (writable : Statement.Writable ⟨instr.mnemonic, instr.operands⟩)
    (listed : (instr.mnemonic, instr.format) ∈ arch.formats) (index : Nat) :
    Writes arch index [Statement.text ⟨instr.mnemonic, instr.operands⟩] [] [instr] := by
  obtain ⟨_, _, noPseudo⟩ := Arch.mnemonic_of_mem_formats listed
  have effect : ∀ start, ofLines arch start [Statement.text ⟨instr.mnemonic, instr.operands⟩] =
      [⟨none, .ok [⟨instr.mnemonic, instr.operands, instr.format, start, none⟩]⟩] := by
    intro start
    have expanded := Statement.expand_of_format? (s := ⟨instr.mnemonic, instr.operands⟩) noPseudo
      (Arch.format?_eq_some.mpr listed) start
    simp only [ofLines_cons, ofLine, writable.read_text, expanded]
    rfl
  refine ⟨by simpa using writable.isLine_text, ?_, ?_, ?_⟩ <;> simp [effect, Accepted, emitted, LabelDef.ofEffects]
  exact fun _ => ⟨rfl, rfl, rfl, rfl⟩

/-- The labels of an order that are bound to the instruction at an index, or to the end. -/
def boundAt (order : List Label) (index : Nat) : List (Text × Nat) :=
  (order.filter fun label => label.address == addressOf index).map fun label => (label.name, index)

theorem labelLines {order : List Label} (named : ∀ label ∈ order, isIdentifier label.name) (arch : Arch)
    (index : Nat) : Writes arch index (Assembly.labelLines order (addressOf index)) (boundAt order index) [] := by
  have identifiers : ∀ name ∈ (order.filter fun label => label.address == addressOf index).map Label.name,
      isIdentifier name := by
    intro name member
    obtain ⟨label, kept, rfl⟩ := List.mem_map.mp member
    exact named label (List.mem_filter.mp kept).1
  simpa [Assembly.labelLines, boundAt, Function.comp_def] using labels_at identifiers arch index

/-- Instructions on lines of their own, each after its labels. -/
theorem canonical {order : List Label} (named : ∀ label ∈ order, isIdentifier label.name) {instrs : List Instr}
    (written : ∀ instr ∈ instrs, Statement.Writable ⟨instr.mnemonic, instr.operands⟩ ∧
      (instr.mnemonic, instr.format) ∈ arch.formats) (index : Nat) :
    Writes arch index
      ((Program.placeFrom index instrs).flatMap (fun instr =>
        Assembly.labelLines order instr.address ++ [Statement.text ⟨instr.mnemonic, instr.operands⟩]) ++
        Assembly.labelLines order (addressOf (index + instrs.length)))
      ((List.range' index (instrs.length + 1)).flatMap (boundAt order)) instrs := by
  induction instrs generalizing index with
  | nil => simpa [Program.placeFrom] using labelLines named arch index
  | cons instr instrs ih =>
    obtain ⟨⟨writable, listed⟩, others⟩ := List.forall_mem_cons.mp written
    have first := (labelLines named arch index).append (statement writable listed index)
    have rest := ih others (index + 1)
    have whole := first.append rest
    simpa [Program.placeFrom, List.range'_succ, Nat.add_assoc, Nat.add_comm 1] using whole

end Writes

theorem addressOf_inj {i k : Nat} (smallI : i < 2 ^ 30) (smallK : k < 2 ^ 30) (same : addressOf i = addressOf k) :
    i = k := by
  have nat := congrArg BitVec.toNat same
  rw [toNat_addressOf smallI, toNat_addressOf smallK] at nat
  omega

/-- Each label stands in front of exactly one instruction, or at the end. -/
theorem bindings_perm {order : List Label} {count : Nat} (nodup : (order.map Label.name).Nodup)
    (inside : ∀ label ∈ order, ∃ k ≤ count, label.address = addressOf k) (small : count < 2 ^ 30) :
    (((List.range' 0 (count + 1)).flatMap (Writes.boundAt order)).map fun d => (d.1, addressOf d.2)).Perm
      (order.map Label.binding) := by
  have same : ((List.range' 0 (count + 1)).flatMap (Writes.boundAt order)).map (fun d => (d.1, addressOf d.2)) =
      (List.range' 0 (count + 1)).flatMap fun k =>
        (order.filter fun label => label.address == addressOf k).map Label.binding := by
    rw [List.map_flatMap]
    refine congrArg (List.flatMap · _) (funext fun k => ?_)
    rw [Writes.boundAt, List.map_map]
    refine List.map_congr_left fun label kept => ?_
    have address := beq_iff_eq.mp (List.mem_filter.mp kept).2
    simp [Label.binding, address]
  have bindings : (order.map Label.binding).Nodup := by
    refine List.Nodup.of_map Prod.fst ?_
    rwa [List.map_map]
  rw [same, List.perm_ext_iff_of_nodup ?_ bindings]
  · rintro p
    simp only [List.mem_flatMap, List.mem_map, List.mem_filter, List.mem_range'_1, beq_iff_eq]
    constructor
    · rintro ⟨_, _, label, ⟨member, _⟩, ofLabel⟩
      exact ⟨label, member, ofLabel⟩
    · rintro ⟨label, member, ofLabel⟩
      obtain ⟨k, bound, address⟩ := inside label member
      exact ⟨k, by omega, label, ⟨member, address⟩, ofLabel⟩
  · refine List.nodup_flatMap.mpr ⟨fun k _ => bindings.sublist (List.filter_sublist.map _), ?_⟩
    -- Labels of different indexes have different addresses.
    refine (List.nodup_range' 1).imp_of_mem fun {i k} inRange inRangeToo differ p atI atK => differ ?_
    obtain ⟨label, kept, rfl⟩ := List.mem_map.mp atI
    obtain ⟨other, keptToo, equal⟩ := List.mem_map.mp atK
    have address := beq_iff_eq.mp (List.mem_filter.mp kept).2
    have addressToo := beq_iff_eq.mp (List.mem_filter.mp keptToo).2
    have equalAddress := (Prod.mk.inj equal).2
    rw [address, addressToo] at equalAddress
    rw [List.mem_range'_1] at inRange inRangeToo
    exact (addressOf_inj (by omega) (by omega) equalAddress).symm

/-- The same instruction at the same address, written directly. -/
structure PlacedInstr.Restates (a b : PlacedInstr) : Prop where
  instr : a.toInstr.Restates b.toInstr
  address : b.address = a.address

theorem PlacedInstr.Restates.agrees {a b : PlacedInstr} (restates : a.Restates b) : a.Agrees b where
  instr := ⟨restates.instr.mnemonic.symm, by rw [restates.instr.operands], restates.instr.format.symm⟩
  address := restates.address.symm

namespace Assembly

variable {arch : Arch} {source : Text} {a b : Assembly} {order : List Label}

theorem index_of_mem_labels (accepted : ofSource arch source = .ok a) :
    ∀ label ∈ a.program.labels.labels, ∃ k ≤ a.program.instrs.length, label.address = addressOf k := by
  intro label member
  obtain ⟨k, _, address⟩ := mem_labels accepted member
  exact ⟨_, sizeBefore_le_length accepted k, address⟩

theorem writes_canonicalLines (accepted : ofSource arch source = .ok a) (all : order.Perm a.program.labels.labels) :
    ∃ base, a.program.instrs = Program.placeFrom 0 base ∧ Writes arch 0 (a.canonicalLines order)
      ((List.range' 0 (a.program.instrs.length + 1)).flatMap (Writes.boundAt order)) base := by
  obtain ⟨_, _, _, placed, _⟩ := ofSource_eq_ok_iff_effects.mp accepted
  have length := congrArg List.length placed
  rw [Program.place_length] at length
  change a.program.instrs = Program.placeFrom 0 _ at placed
  have named : ∀ label ∈ order, isIdentifier label.name :=
    fun label member => named_labels accepted label (all.mem_iff.mp member)
  have written : ∀ instr ∈ (LineEffect.ofSource arch source).flatMap emitted,
      Statement.Writable ⟨instr.mnemonic, instr.operands⟩ ∧ (instr.mnemonic, instr.format) ∈ arch.formats := by
    intro instr member
    obtain ⟨i, atIndex⟩ := List.getElem?_of_mem member
    have inPlace : a.program.instrs[i]? = some { instr with address := addressOf i } :=
      placed ▸ (Program.place_getElem? _ i).trans (congrArg _ atIndex)
    exact ⟨writable_of_mem accepted (List.mem_of_getElem? inPlace), (encoded_of_getElem? accepted inPlace).1⟩
  have whole := Writes.canonical named written 0
  refine ⟨_, placed, ?_⟩
  unfold canonicalLines Program.endAddress
  rw [length, placed]
  simpa only [Nat.zero_add] using whole

/-- An assembled source is assembled again from its canonical lines, to the same words and labels. -/
theorem exists_restated (accepted : ofSource arch source = .ok a) (small : a.program.instrs.length < 2 ^ 30)
    (all : order.Perm a.program.labels.labels) :
    ∃ b, ofSource arch (a.canonicalSource order) = .ok b ∧ b.words = a.words ∧
      b.program.labels.SameBindings a.program.labels ∧
      List.Forall₂ PlacedInstr.Restates a.program.instrs b.program.instrs := by
  obtain ⟨base, placed, writes⟩ := writes_canonicalLines accepted all
  obtain ⟨_, _, _, _, encoded⟩ := ofSource_eq_ok_iff_effects.mp accepted
  have effects : LineEffect.ofSource arch (a.canonicalSource order) = ofLines arch 1 (a.canonicalLines order) :=
    congrArg (ofLines arch 1) (lines_ofLines writes.areLines)
  have nodup : (order.map Label.name).Nodup := (all.map Label.name).nodup_iff.mpr a.program.labels.nodup
  have indexes : ∀ label ∈ order, ∃ k ≤ a.program.instrs.length, label.address = addressOf k :=
    fun label member => index_of_mem_labels accepted label (all.mem_iff.mp member)
  have perm := bindings_perm nodup indexes small
  rw [← writes.defines 1 1, List.map_map] at perm
  have bindings : (((LabelDef.ofEffects 0 1 (ofLines arch 1 (a.canonicalLines order))).map LabelDef.bound).reverse.map
      Label.binding).Perm (a.program.labels.labels.map Label.binding) := by
    rw [List.map_reverse, List.map_map]
    exact (List.reverse_perm _).trans (perm.trans (all.map _))
  have distinct := (bindings.map Prod.fst).nodup_iff.mpr
    (by simpa [Function.comp_def, Label.binding] using a.program.labels.nodup)
  rw [List.map_map] at distinct
  have instrs := (Program.forall₂_placeFrom (writes.adds 1) 0).imp fun _ _ both =>
    PlacedInstr.Restates.mk both.1 both.2.symm
  rw [← placed] at instrs
  let table : LabelTable := ⟨_, distinct⟩
  have same : table.SameBindings a.program.labels := bindings
  refine ⟨⟨⟨arch, Program.placeFrom 0 _, table⟩, a.words⟩, ofSource_eq_ok_iff_effects.mpr ?_, rfl, same, instrs⟩
  rw [effects]
  refine ⟨writes.accepted 1, rfl, rfl, rfl, ?_⟩
  exact PlacedInstr.encoded_of_agrees (fun name => (same.address?_eq name).symm) arch
    (instrs.imp fun _ _ restates => restates.agrees) encoded

theorem labelLines_eq (labels : List Label) (address : Word) :
    labelLines labels address =
      ((labels.map Label.entry).filter fun entry => entry.2 == address.toNat).map fun entry => entry.1 ++ [':'] := by
  have same : (fun entry : Text × Nat => entry.2 == address.toNat) ∘ Label.entry =
      fun label => label.address == address := by
    funext label
    simp [Label.entry, beq_eq_decide, BitVec.toNat_inj]
  rw [List.filter_map, same, List.map_map]
  rfl

/-- The canonical lines tell nothing but the written labels and, of each instruction, what a direct one keeps. -/
theorem canonicalLines_congr {first second : List Label} (entries : first.map Label.entry = second.map Label.entry)
    (restates : List.Forall₂ PlacedInstr.Restates a.program.instrs b.program.instrs) :
    b.canonicalLines second = a.canonicalLines first := by
  have atAddress : labelLines second = labelLines first := by
    funext address
    rw [labelLines_eq, labelLines_eq, entries]
  unfold canonicalLines Program.endAddress
  rw [atAddress, restates.length_eq]
  generalize a.program.instrs = instrs at restates ⊢
  generalize b.program.instrs = others at restates ⊢
  refine congrArg (· ++ _) ?_
  induction restates with
  | nil => rfl
  | cons first _ ih =>
    rw [List.flatMap_cons, List.flatMap_cons, ih, first.address, first.instr.mnemonic, first.instr.operands]

/-- The canonical form of an assembled source, with the labels of one address in any order, holds no pseudo instruction
and is assembled to the same words, labels and instructions at the same addresses. So the result has the same canonical
form again. -/
theorem canonical_fixpoint (accepted : ofSource arch source = .ok a) (small : a.program.instrs.length < 2 ^ 30)
    (all : order.Perm a.program.labels.labels) :
    (∀ instr ∈ a.program.instrs, Pseudo.ofMnemonic? arch instr.mnemonic = none) ∧
    ∃ b, ofSource arch (a.canonicalSource order) = .ok b ∧ b.words = a.words ∧ b.labelEntries = a.labelEntries ∧
      (∀ name, b.program.labels.address? name = a.program.labels.address? name) ∧
      List.Forall₂ PlacedInstr.Restates a.program.instrs b.program.instrs ∧
      b.canonicalSource b.program.labels.sorted = a.canonicalSource a.program.labels.sorted := by
  constructor
  · intro instr member
    obtain ⟨i, atIndex⟩ := List.getElem?_of_mem member
    exact (Arch.mnemonic_of_mem_formats (encoded_of_getElem? accepted atIndex).1).2.2
  · obtain ⟨b, again, words, same, instrs⟩ := exists_restated accepted small all
    exact ⟨b, again, words, same.entries_eq, same.address?_eq, instrs,
      congrArg Text.ofLines (canonicalLines_congr same.entries_eq.symm instrs)⟩

/-- A constant of two instructions, and labels before it and at the end. -/
theorem canonical_fixpoint_loop :
    ∃ a b, ofSource .mips "loop: li $t0, 0x12345678 # constant\nj loop\nend:".toList = .ok a ∧
      ofSource .mips "loop:\nlui $t0, 0x1234\nori $t0, $t0, 0x5678\nj loop\nend:\n".toList = .ok b ∧
      b.words = a.words ∧ b.labelEntries = a.labelEntries := by
  have evaluated : (ofSource .mips "loop: li $t0, 0x12345678 # constant\nj loop\nend:".toList).toOption.map
      (fun a => (a.program.instrs.length, a.canonicalSource a.program.labels.labels)) =
      some (3, "loop:\nlui $t0, 0x1234\nori $t0, $t0, 0x5678\nj loop\nend:\n".toList) := by decide +kernel
  obtain ⟨a, ofOption, same⟩ := Option.map_eq_some_iff.mp evaluated
  obtain ⟨count, canonical⟩ := Prod.mk.inj same
  have accepted := toOption_eq_some.mp ofOption
  obtain ⟨_, b, again, words, entries, _⟩ := canonical_fixpoint accepted (by rw [count]; decide) (List.Perm.refl _)
  exact ⟨a, b, accepted, canonical ▸ again, words, entries⟩

end Assembly

end RiscAsm
