import RiscAsm.Proofs.JoinedSources
import RiscAsm.Proofs.MovedInstructions

namespace RiscAsm

namespace Program

/-- Instructions at consecutive addresses from an index on. -/
def placeFrom (start : Nat) (instrs : List Instr) : List PlacedInstr :=
  (instrs.zipIdx start).map fun numbered => { numbered.1 with address := addressOf numbered.2 }

theorem place_append (instrs others : List Instr) :
    place (instrs ++ others) = place instrs ++ placeFrom (0 + instrs.length) others := by
  rw [place, List.zipIdx_append, List.map_append]
  rfl

theorem forall₂_placeFrom {R : Instr → Instr → Prop} {instrs others : List Instr}
    (related : List.Forall₂ R instrs others) (start : Nat) :
    List.Forall₂ (fun a b => R a.toInstr b.toInstr ∧ a.address = b.address) (placeFrom start instrs)
      (placeFrom start others) := by
  induction related generalizing start with
  | nil => exact .nil
  | cons first _ ih => exact .cons ⟨first, rfl⟩ (ih (start + 1))

theorem moved_placeFrom {instrs others : List Instr} (alike : List.Forall₂ Instr.Alike instrs others)
    (start count : Nat) :
    List.Forall₂ (PlacedInstr.Moved count) (placeFrom start instrs) (placeFrom (start + count) others) := by
  induction alike generalizing start with
  | nil => exact .nil
  | cons first rest ih =>
    obtain ⟨line, rfl⟩ := first
    refine .cons ⟨line, congrArg (PlacedInstr.mk _) (addressOf_add start count)⟩ ?_
    rw [Nat.add_right_comm]
    exact ih (start + 1)

theorem moved_zero (instrs : List PlacedInstr) : List.Forall₂ (PlacedInstr.Moved 0) instrs instrs :=
  List.forall₂_same.mpr fun instr _ => ⟨instr.line, by simp [addressOf, Instr.onLine]⟩

end Program

/-- A label as it is written out. -/
def Label.entry (label : Label) : Text × Nat := (label.name, label.address.toNat)

/-- The same label, some words and lines later. -/
def Label.moved (count lines : Nat) (label : Label) : Label :=
  ⟨label.name, label.address + addressOf count, label.line + lines⟩

theorem LabelDef.bound_moved (count lines : Nat) (d : LabelDef) :
    (d.moved count lines).bound = d.bound.moved count lines := by
  simp [moved, bound, Label.moved, addressOf_add]

namespace LabelTable

variable {first second joined : LabelTable} {count lines : Nat} {token : Text}

/-- A table of the labels of two sources, of which the second comes some words and lines later. -/
def Joins (first second : LabelTable) (count lines : Nat) (joined : LabelTable) : Prop :=
  joined.labels = second.labels.map (Label.moved count lines) ++ first.labels

theorem exists_joins (disjoint : ∀ label ∈ first.labels, ∀ other ∈ second.labels, label.name ≠ other.name)
    (count lines : Nat) : ∃ joined, first.Joins second count lines joined := by
  have nodup : ((second.labels.map (Label.moved count lines) ++ first.labels).map Label.name).Nodup := by
    rw [List.map_append, List.map_map]
    refine List.nodup_append.mpr ⟨second.nodup, first.nodup, ?_⟩
    rintro _ inSecond _ inFirst rfl
    obtain ⟨other, member, rfl⟩ := List.mem_map.mp inSecond
    obtain ⟨label, memberToo, same⟩ := List.mem_map.mp inFirst
    exact disjoint label memberToo other member same
  exact ⟨⟨_, nodup⟩, rfl⟩

theorem Joins.named (joins : first.Joins second count lines joined) (ofFirst : first.Named) (ofSecond : second.Named) :
    joined.Named := by
  intro label member
  rw [joins, List.mem_append, List.mem_map] at member
  rcases member with ⟨other, inSecond, rfl⟩ | inFirst
  · exact ofSecond other inSecond
  · exact ofFirst label inFirst

theorem Joins.moves_first (joins : first.Joins second count lines joined) (ofFirst : first.Named)
    (ofSecond : second.Named) (token : Text) : first.Moves joined 0 token := by
  intro target found
  have zero : target + addressOf 0 = target := by simp [addressOf]
  refine ⟨target.isLt, ?_⟩
  rw [zero]
  cases labelled : first.find? token with
  | some label =>
    obtain ⟨member, same⟩ := find?_eq_some_iff.mp labelled
    have inJoined : label ∈ joined.labels := by rw [joins]; exact List.mem_append_right _ member
    have labelledToo := find?_eq_some_iff.mpr ⟨inJoined, same⟩
    simpa only [LabelTable.target, address?, labelled, labelledToo] using found
  | none =>
    have absent : first.address? token = none := by simp [address?, labelled]
    -- A token that is not a label is a number, and no label of the other source is named like one.
    cases reads : Numeral.literal? token with
    | some value =>
      have absentToo := (joins.named ofFirst ofSecond).address?_of_literal reads
      simpa only [LabelTable.target, absent, absentToo, reads] using found
    | none =>
      simp only [LabelTable.target, absent, reads] at found
      split at found <;> cases found

theorem Joins.moves_second (joins : first.Joins second count lines joined)
    (known : ∃ label ∈ second.labels, label.name = token)
    (inside : ∀ label ∈ second.labels, label.address.toNat + 4 * count < 2 ^ 32) :
    second.Moves joined count token := by
  intro target found
  obtain ⟨label, member, same⟩ := known
  have labelled := find?_eq_some_iff.mpr ⟨member, same⟩
  have inJoined : label.moved count lines ∈ joined.labels := by
    rw [joins]
    exact List.mem_append_left _ (List.mem_map_of_mem member)
  have labelledToo : joined.find? token = some (label.moved count lines) := find?_eq_some_iff.mpr ⟨inJoined, same⟩
  simp only [LabelTable.target, address?, labelled, labelledToo, Option.map_some, Except.ok.injEq] at found ⊢
  subst found
  exact ⟨inside label member, rfl⟩

/-- The entries of the second source lie later by its distance. -/
theorem Joins.entries (joins : first.Joins second count lines joined)
    (inside : ∀ label ∈ second.labels, label.address.toNat + 4 * count < 2 ^ 32) :
    joined.labels.map Label.entry =
      (second.labels.map Label.entry).map (fun entry => (entry.1, entry.2 + 4 * count)) ++
        first.labels.map Label.entry := by
  rw [joins, List.map_append, List.map_map, List.map_map]
  refine congrArg (· ++ _) (List.map_congr_left fun label member => ?_)
  exact congrArg (Prod.mk _) (toNat_add_addressOf (inside label member))

end LabelTable

/-- A line that defines a name has it as its label. -/
theorem LineEffect.mem_map_label {effects : List LineEffect} {k : Nat} {name : Text}
    (defined : DefinesAt effects k name) : some name ∈ effects.map LineEffect.label := by
  obtain ⟨effect, atK, labelled⟩ := Option.bind_eq_some_iff.mp defined
  exact List.mem_map.mpr ⟨effect, List.mem_of_getElem? atK, labelled⟩

namespace Assembly

open LineEffect

variable {arch : Arch} {source first second : Text} {a b c : Assembly}

/-- An assembled source holds what its lines add, and the words of their instructions. -/
theorem ofSource_eq_ok_iff_effects :
    ofSource arch source = .ok c ↔ (∀ effect ∈ LineEffect.ofSource arch source, effect.Accepted) ∧
      c.program.arch = arch ∧
      c.program.labels.labels =
        ((LabelDef.ofEffects 0 1 (LineEffect.ofSource arch source)).map LabelDef.bound).reverse ∧
      c.program.instrs = Program.place ((LineEffect.ofSource arch source).flatMap emitted) ∧
      List.Forall₂ (fun instr word => PlacedInstr.encode arch c.program.labels instr = .ok word)
        c.program.instrs c.words := by
  rw [ofSource_eq_ok_iff]
  constructor
  · rintro ⟨e, expanded, own, labels, instrs, encoded⟩
    obtain ⟨accepted, _, ofInstrs, ofLabels⟩ := Expansion.ofSource_eq_ok_iff.mp expanded
    exact ⟨accepted, own, by rw [labels, ofLabels], by rw [instrs, ofInstrs], encoded⟩
  · rintro ⟨accepted, own, labels, instrs, encoded⟩
    obtain ⟨e, expanded⟩ := Expansion.exists_ofSource accepted
    obtain ⟨_, _, ofInstrs, ofLabels⟩ := Expansion.ofSource_eq_ok_iff.mp expanded
    exact ⟨e, expanded, own, by rw [labels, ofLabels], by rw [instrs, ofInstrs], encoded⟩

/-- Joined sources have the instructions and labels of the first and, some words later, those of the second. -/
theorem joined_eq_ok_iff (ofFirst : ofSource arch first = .ok a) (ofSecond : ofSource arch second = .ok b) :
    ∃ later lines, List.Forall₂ (PlacedInstr.Moved a.words.length) b.program.instrs later ∧
      ∀ c, ofSource arch (first ++ '\n' :: second) = .ok c ↔ c.program.arch = arch ∧
        a.program.labels.Joins b.program.labels a.words.length lines c.program.labels ∧
        c.program.instrs = a.program.instrs ++ later ∧
        List.Forall₂ (fun instr word => PlacedInstr.encode arch c.program.labels instr = .ok word)
          c.program.instrs c.words := by
  have length := length_words ofFirst
  obtain ⟨accepted, _, labels, instrs, _⟩ := ofSource_eq_ok_iff_effects.mp ofFirst
  obtain ⟨acceptedToo, _, labelsToo, instrsToo, _⟩ := ofSource_eq_ok_iff_effects.mp ofSecond
  obtain ⟨others, emits, alike⟩ := emitted_joined arch first second
  obtain ⟨lines, defines⟩ := LabelDef.ofEffects_joined arch first second
  rw [instrs, Program.place_length] at length
  refine ⟨Program.placeFrom (0 + a.words.length) others, lines, ?_, fun c => ?_⟩
  · rw [instrsToo]
    exact Program.moved_placeFrom alike 0 _
  · have bounds : (LabelDef.bound ∘ LabelDef.moved a.words.length lines) =
        Label.moved a.words.length lines ∘ LabelDef.bound := funext (LabelDef.bound_moved _ _)
    rw [ofSource_eq_ok_iff_effects, emits, defines, Program.place_append, ← instrs, ← length, List.map_append,
      List.reverse_append, ← labels, List.map_map, bounds, ← List.map_map, ← List.map_reverse, ← labelsToo]
    exact ⟨fun whole => whole.2, fun whole => ⟨accepted_joined accepted acceptedToo, whole⟩⟩

theorem mem_labels (accepted : ofSource arch source = .ok a) {label : Label}
    (member : label ∈ a.program.labels.labels) :
    ∃ k, DefinesAt (LineEffect.ofSource arch source) k label.name ∧
      label.address = addressOf (sizeBefore (LineEffect.ofSource arch source) k) := by
  obtain ⟨k, effect, atK, labelled, same⟩ :=
    (find?_eq_some_iff accepted).mp (LabelTable.find?_eq_some_iff.mpr ⟨member, rfl⟩)
  exact ⟨k, Option.bind_eq_some_iff.mpr ⟨effect, atK, labelled⟩, congrArg Label.address same⟩

theorem mem_labels_of_definesAt (accepted : ofSource arch source = .ok a) {k : Nat} {name : Text}
    (defined : DefinesAt (LineEffect.ofSource arch source) k name) :
    ∃ label ∈ a.program.labels.labels, label.name = name := by
  obtain ⟨effect, atK, labelled⟩ := Option.bind_eq_some_iff.mp defined
  have found := (find?_eq_some_iff accepted).mpr ⟨k, effect, atK, labelled, rfl⟩
  obtain ⟨member, same⟩ := LabelTable.find?_eq_some_iff.mp found
  exact ⟨_, member, same⟩

theorem address_le_of_mem_labels (accepted : ofSource arch source = .ok a) (small : a.words.length < 2 ^ 30)
    {label : Label} (member : label ∈ a.program.labels.labels) : label.address.toNat ≤ 4 * a.words.length := by
  obtain ⟨k, _, address⟩ := mem_labels accepted member
  have before := sizeBefore_le_length accepted k
  have length := length_words accepted
  rw [address, toNat_addressOf (by omega)]
  omega

theorem placed_of_mem (accepted : ofSource arch source = .ok a) {instr : PlacedInstr}
    (member : instr ∈ a.program.instrs) :
    instr.format.arch = arch ∧ ∃ i, i < a.words.length ∧ a.program.instrs[i]? = some instr ∧
      instr.address = addressOf i := by
  obtain ⟨i, atIndex⟩ := List.getElem?_of_mem member
  have inside := (List.getElem?_eq_some_iff.mp atIndex).1
  obtain ⟨listed, address, _⟩ := encoded_of_getElem? accepted atIndex
  exact ⟨Arch.arch_of_mem_formats listed, i, by rwa [length_words accepted], atIndex, address⟩

section Joined

variable {lines : Nat} {joined : LabelTable} {words : List Word}

/-- The words of the first source stay as they are. -/
theorem encoded_first (ofFirst : ofSource arch first = .ok a) (ofSecond : ofSource arch second = .ok b)
    (joins : a.program.labels.Joins b.program.labels a.words.length lines joined) :
    List.Forall₂ (fun instr word => PlacedInstr.encode arch joined instr = .ok word) a.program.instrs words ↔
      words = a.words := by
  obtain ⟨_, _, _, _, encoded⟩ := ofSource_eq_ok_iff_effects.mp ofFirst
  rw [PlacedInstr.forall₂_encode_moved (Program.moved_zero _) encoded]
  · have same : List.zipWith (fun (instr : PlacedInstr) word => instr.format.relocate 0 word) a.program.instrs a.words =
        a.words := by
      simp only [Format.relocate_zero, ← List.map_uncurry_zip_eq_zipWith]
      exact List.map_snd_zip (length_words ofFirst).le
    simp [same, Format.relocates_zero]
  · exact fun instr member => (placed_of_mem ofFirst member).1
  · exact fun instr member => instr.address.isLt
  · exact fun instr member token _ => joins.moves_first (named_labels ofFirst) (named_labels ofSecond) token

/-- The words of the second source are relocated. -/
theorem encoded_second (ofSecond : ofSource arch second = .ok b)
    (closed : ∀ i token, b.targetToken? i = some token → ∃ k, DefinesAt (LineEffect.ofSource arch second) k token)
    (small : a.words.length + b.words.length < 2 ^ 30) {later : List PlacedInstr}
    (moved : List.Forall₂ (PlacedInstr.Moved a.words.length) b.program.instrs later)
    (joins : a.program.labels.Joins b.program.labels a.words.length lines joined) :
    List.Forall₂ (fun instr word => PlacedInstr.encode arch joined instr = .ok word) later words ↔
      (∀ p ∈ b.program.instrs.zip b.words, p.1.format.Relocates a.words.length p.2) ∧
      words = List.zipWith (fun instr word => instr.format.relocate a.words.length word)
        b.program.instrs b.words := by
  obtain ⟨_, _, _, _, encoded⟩ := ofSource_eq_ok_iff_effects.mp ofSecond
  refine PlacedInstr.forall₂_encode_moved moved encoded ?_ ?_ ?_
  · exact fun instr member => (placed_of_mem ofSecond member).1
  · intro instr member
    obtain ⟨_, i, inside, _, address⟩ := placed_of_mem ofSecond member
    rw [address, toNat_addressOf (by omega)]
    omega
  · intro instr member token goes
    obtain ⟨_, i, _, atIndex, _⟩ := placed_of_mem ofSecond member
    obtain ⟨k, defined⟩ := closed i token (Option.bind_eq_some_iff.mpr ⟨instr, atIndex, goes⟩)
    refine joins.moves_second (mem_labels_of_definesAt ofSecond defined) fun label inTable => ?_
    have bound := address_le_of_mem_labels ofSecond (by omega) inTable
    omega

end Joined

def labelEntries (a : Assembly) : List (Text × Nat) := a.program.labels.sorted.map Label.entry

theorem labelEntries_perm (a : Assembly) : a.labelEntries.Perm (a.program.labels.labels.map Label.entry) :=
  (List.mergeSort_perm _ _).map _

/-- Two sources with labels of their own, of which the second goes only to its own labels, may be joined by a line
feed, if the jumps of the second that hold the index of their target can hold the index that it then has. All other
words stay as they are, and the labels of the second lie as many words later as the first has. -/
theorem relocates_joined (ofFirst : ofSource arch first = .ok a) (ofSecond : ofSource arch second = .ok b)
    (disjoint : ∀ name i k, DefinesAt (LineEffect.ofSource arch first) i name →
      ¬ DefinesAt (LineEffect.ofSource arch second) k name)
    (closed : ∀ i token, b.targetToken? i = some token → ∃ k, DefinesAt (LineEffect.ofSource arch second) k token)
    (small : a.words.length + b.words.length < 2 ^ 30) :
    ((∃ c, ofSource arch (first ++ '\n' :: second) = .ok c) ↔
      ∀ p ∈ b.program.instrs.zip b.words, p.1.format.Relocates a.words.length p.2) ∧
    ∀ c, ofSource arch (first ++ '\n' :: second) = .ok c →
      c.words = a.words ++ List.zipWith (fun instr word => instr.format.relocate a.words.length word)
        b.program.instrs b.words ∧
      c.labelEntries.Perm
        (a.labelEntries ++ b.labelEntries.map fun entry => (entry.1, entry.2 + 4 * a.words.length)) := by
  obtain ⟨later, lines, moved, joined⟩ := joined_eq_ok_iff ofFirst ofSecond
  have encoded : ∀ table, a.program.labels.Joins b.program.labels a.words.length lines table → ∀ words,
      List.Forall₂ (fun instr word => PlacedInstr.encode arch table instr = .ok word)
        (a.program.instrs ++ later) words ↔
        (∀ p ∈ b.program.instrs.zip b.words, p.1.format.Relocates a.words.length p.2) ∧
        words = a.words ++ List.zipWith (fun instr word => instr.format.relocate a.words.length word)
          b.program.instrs b.words := by
    intro table joins words
    simp only [forall₂_ok_append, encoded_first ofFirst ofSecond joins,
      encoded_second ofSecond closed small moved joins]
    grind
  refine ⟨⟨?_, ?_⟩, ?_⟩
  · rintro ⟨c, whole⟩
    obtain ⟨_, joins, instrs, words⟩ := (joined c).mp whole
    rw [instrs] at words
    exact ((encoded _ joins _).mp words).1
  · intro fits
    have apart : ∀ label ∈ a.program.labels.labels, ∀ other ∈ b.program.labels.labels, label.name ≠ other.name := by
      intro label member other memberToo same
      obtain ⟨i, defined, _⟩ := mem_labels ofFirst member
      obtain ⟨k, definedToo, _⟩ := mem_labels ofSecond memberToo
      exact disjoint _ i k defined (same ▸ definedToo)
    obtain ⟨table, joins⟩ := LabelTable.exists_joins apart a.words.length lines
    exact ⟨⟨⟨arch, _, table⟩, _⟩, (joined _).mpr ⟨rfl, joins, rfl, (encoded _ joins _).mpr ⟨fits, rfl⟩⟩⟩
  · intro c whole
    obtain ⟨_, joins, instrs, words⟩ := (joined c).mp whole
    rw [instrs] at words
    refine ⟨((encoded _ joins _).mp words).2, ?_⟩
    have entries := joins.entries fun label member => by
      have bound := address_le_of_mem_labels ofSecond (by omega) member
      omega
    refine c.labelEntries_perm.trans ?_
    rw [entries]
    exact List.perm_append_comm.trans (a.labelEntries_perm.symm.append (b.labelEntries_perm.symm.map _))

/-- A label at the end of the first source leads to the jump of the second, which comes one word later. -/
theorem relocates_joined_jump :
    ∃ a b c, ofSource .mips "nop\nend:".toList = .ok a ∧ ofSource .mips "loop: j loop".toList = .ok b ∧
      ofSource .mips ("nop\nend:".toList ++ '\n' :: "loop: j loop".toList) = .ok c ∧
      b.words = [0x08000000#32] ∧ c.words = a.words ++ [0x08000001#32] ∧
      c.labelEntries.Perm (a.labelEntries ++ b.labelEntries.map fun entry => (entry.1, entry.2 + 4)) := by
  have firstEvaluated : (ofSource .mips "nop\nend:".toList).toOption.map (fun a => a.words) = some [0x20000000#32] := by
    decide +kernel
  have secondEvaluated : (ofSource .mips "loop: j loop".toList).toOption.map (fun b => (b.words, b.program.instrs)) =
      some ([0x08000000#32], [⟨⟨"j".toList, "loop".toList, .mips (.jump 0x02), 1, none⟩, 0#32⟩]) := by
    decide +kernel
  have firstLabels : (LineEffect.ofSource .mips "nop\nend:".toList).map LineEffect.label =
      [none, some "end".toList] := by decide +kernel
  have secondLabels : (LineEffect.ofSource .mips "loop: j loop".toList).map LineEffect.label =
      [some "loop".toList] := by decide +kernel
  have defines : DefinesAt (LineEffect.ofSource .mips "loop: j loop".toList) 0 "loop".toList := by
    unfold DefinesAt
    decide +kernel
  obtain ⟨a, ofA, aWords⟩ := Option.map_eq_some_iff.mp firstEvaluated
  obtain ⟨b, ofB, same⟩ := Option.map_eq_some_iff.mp secondEvaluated
  obtain ⟨bWords, bInstrs⟩ := Prod.mk.inj same
  have ofFirst := toOption_eq_some.mp ofA
  have ofSecond := toOption_eq_some.mp ofB
  have disjoint : ∀ name i k, DefinesAt (LineEffect.ofSource .mips "nop\nend:".toList) i name →
      ¬ DefinesAt (LineEffect.ofSource .mips "loop: j loop".toList) k name := by
    intro name i k inFirst inSecond
    have first := mem_map_label inFirst
    have second := mem_map_label inSecond
    rw [firstLabels] at first
    rw [secondLabels] at second
    simp_all
  have closed : ∀ i token, b.targetToken? i = some token →
      ∃ k, DefinesAt (LineEffect.ofSource .mips "loop: j loop".toList) k token := by
    intro i token goes
    obtain ⟨instr, atIndex, ofInstr⟩ := Option.bind_eq_some_iff.mp goes
    cases List.mem_singleton.mp (bInstrs ▸ List.mem_of_getElem? atIndex)
    have loop : some "loop".toList = some token := (show _ = some "loop".toList by decide).symm.trans ofInstr
    exact ⟨0, Option.some.inj loop ▸ defines⟩
  have all := relocates_joined ofFirst ofSecond disjoint closed (by rw [aWords, bWords]; decide)
  rw [aWords, bWords, bInstrs] at all
  obtain ⟨c, ofJoined⟩ := all.1.mpr (by simp [Format.Relocates, Mips.JType.unpack]; decide)
  obtain ⟨words, entries⟩ := all.2 c ofJoined
  exact ⟨a, b, c, ofFirst, ofSecond, ofJoined, bWords, by rw [words, aWords]; decide, entries⟩

end Assembly

end RiscAsm
