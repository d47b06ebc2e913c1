import RiscAsm.Proofs.ExpandedSource
import RiscAsm.Proofs.InstructionMeaning

namespace RiscAsm

namespace LabelTable

theorem eq_iff {a b : LabelTable} : a = b ↔ a.labels = b.labels := by
  cases a
  cases b
  simp

theorem define_eq_ok_iff {t next : LabelTable} {label : Label} :
    t.define label = .ok next ↔ next.labels = label :: t.labels := by
  constructor
  · intro defined
    cases found : t.find? label.name with
    | none =>
      rw [define_of_fresh found] at defined
      cases defined
      rfl
    | some first =>
      rw [define_of_found found] at defined
      cases defined
  · intro grown
    have distinct := next.nodup
    rw [grown, List.map_cons, List.nodup_cons] at distinct
    have fresh := find?_eq_none.mpr distinct.1
    rw [define_of_fresh fresh, Except.ok.injEq, eq_iff, grown]
    rfl

theorem find?_eq_some_iff {t : LabelTable} {name : Text} {label : Label} :
    t.find? name = some label ↔ label ∈ t.labels ∧ label.name = name :=
  Text.find?_key_eq_some_iff t.nodup

end LabelTable

/-- The label of a definition, with the address of the instruction it counts to. -/
def LabelDef.bound (d : LabelDef) : Label := ⟨d.name, addressOf d.index, d.line⟩

namespace Program

/-- Labels are bound if their names are pairwise different, and none is left out. -/
theorem bindLabels_eq_ok_iff {defs : List LabelDef} {table : LabelTable} :
    bindLabels defs = .ok table ↔ table.labels = (defs.map LabelDef.bound).reverse := by
  -- Definitions are added to the front of the table, which may hold others already.
  have all : ∀ start : LabelTable,
      defs.foldlM (fun table label => table.define ⟨label.name, addressOf label.index, label.line⟩) start = .ok table ↔
        table.labels = (defs.map LabelDef.bound).reverse ++ start.labels := by
    induction defs with
    | nil =>
      intro start
      rw [List.foldlM_nil, pure_eq_ok, eq_comm, LabelTable.eq_iff]
      rfl
    | cons d defs ih =>
      intro start
      rw [List.foldlM_cons, bind_eq_ok, List.map_cons, List.reverse_cons, List.append_assoc]
      constructor
      · rintro ⟨next, defined, rest⟩
        rw [(ih next).mp rest, LabelTable.define_eq_ok_iff.mp defined]
        rfl
      · intro whole
        have distinct := table.nodup
        rw [whole, List.map_append] at distinct
        exact ⟨⟨d.bound :: start.labels, (List.nodup_append.mp distinct).2.1⟩, LabelTable.define_eq_ok_iff.mpr rfl,
          (ih _).mpr whole⟩
  simpa [bindLabels] using all {}

end Program

theorem PlacedInstr.word_eq_ok_iff {arch : Arch} {labels : LabelTable} {instr : PlacedInstr} {word : Word} :
    instr.word arch labels = .ok word ↔ instr.encode arch labels = .ok word := by
  unfold PlacedInstr.word
  split <;> simp_all

namespace Assembly

/-- A source is assembled if it expands, its labels are bound and each instruction at its address is encoded. -/
theorem ofSource_eq_ok_iff {arch : Arch} {source : Text} {a : Assembly} :
    ofSource arch source = .ok a ↔ ∃ e, Expansion.ofSource arch source = .ok e ∧ a.program.arch = arch ∧
      a.program.labels.labels = (e.labels.toList.map LabelDef.bound).reverse ∧
      a.program.instrs = Program.place e.instrs.toList ∧
      List.Forall₂ (fun instr word => PlacedInstr.encode arch a.program.labels instr = .ok word)
        a.program.instrs a.words := by
  unfold ofSource Program.ofExpansion ofProgram Program.encode
  simp only [bind_eq_ok, pure_eq_ok, mapM_eq_ok_iff, PlacedInstr.word_eq_ok_iff, Program.bindLabels_eq_ok_iff]
  constructor
  · rintro ⟨e, expanded, program, ⟨table, bound, rfl⟩, words, encoded, rfl⟩
    have own := (Expansion.ofSource_eq_ok_iff.mp expanded).2.1
    rw [own] at encoded
    exact ⟨e, expanded, own, bound, rfl, encoded⟩
  · rintro ⟨e, expanded, own, bound, placed, encoded⟩
    have same := (Expansion.ofSource_eq_ok_iff.mp expanded).2.1
    refine ⟨e, expanded, a.program, ⟨a.program.labels, bound, ?_⟩, a.words, by rw [own]; exact encoded, rfl⟩
    rw [same, ← own, ← placed]

variable {arch : Arch} {source : Text} {a : Assembly}

theorem length_words (accepted : ofSource arch source = .ok a) : a.words.length = a.program.instrs.length := by
  obtain ⟨_, _, _, _, _, encoded⟩ := ofSource_eq_ok_iff.mp accepted
  exact encoded.length_eq.symm

/-- An instruction of an assembled source is listed, lies at the address of its index and is encoded as the word
there. -/
theorem encoded_of_getElem? (accepted : ofSource arch source = .ok a) {i : Nat} {instr : PlacedInstr}
    (atIndex : a.program.instrs[i]? = some instr) :
    (instr.mnemonic, instr.format) ∈ arch.formats ∧ instr.address = addressOf i ∧
      ∃ word, a.words[i]? = some word ∧ instr.encode arch a.program.labels = .ok word := by
  obtain ⟨e, expanded, _, _, placed, encoded⟩ := ofSource_eq_ok_iff.mp accepted
  obtain ⟨_, _, ofInstrs, _⟩ := Expansion.ofSource_eq_ok_iff.mp expanded
  obtain ⟨inside, same⟩ := List.getElem?_eq_some_iff.mp atIndex
  have inWords : i < a.words.length := by rw [length_words accepted]; exact inside
  have atWord := (List.forall₂_iff_get.mp encoded).2 i inside inWords
  rw [placed, Program.place_getElem?] at atIndex
  obtain ⟨base, found, rfl⟩ := Option.map_eq_some_iff.mp atIndex
  rw [ofInstrs] at found
  refine ⟨LineEffect.listed_of_mem_ofSource (List.mem_of_getElem? found), rfl, a.words[i],
    List.getElem?_eq_getElem inWords, ?_⟩
  rw [← same]
  exact atWord

theorem named_labels (accepted : ofSource arch source = .ok a) : a.program.labels.Named := by
  obtain ⟨e, expanded, _, bound, _, _⟩ := ofSource_eq_ok_iff.mp accepted
  obtain ⟨_, _, _, ofLabels⟩ := Expansion.ofSource_eq_ok_iff.mp expanded
  intro label member
  rw [bound, List.mem_reverse, ofLabels] at member
  obtain ⟨d, inDefs, rfl⟩ := List.mem_map.mp member
  obtain ⟨k, effect, atK, labelled, _⟩ := LabelDef.mem_ofEffects.mp inDefs
  obtain ⟨numbered, _, rfl⟩ := List.mem_map.mp (List.mem_of_getElem? atK)
  exact LineEffect.isIdentifier_of_label labelled

/-- A label is found if a line defines it, and then leads to the first instruction after that line's start. -/
theorem find?_eq_some_iff (accepted : ofSource arch source = .ok a) {name : Text} {label : Label} :
    a.program.labels.find? name = some label ↔
      ∃ k effect, (LineEffect.ofSource arch source)[k]? = some effect ∧ effect.label = some name ∧
        label = ⟨name, addressOf (LineEffect.sizeBefore (LineEffect.ofSource arch source) k), 1 + k⟩ := by
  obtain ⟨e, expanded, _, bound, _, _⟩ := ofSource_eq_ok_iff.mp accepted
  obtain ⟨_, _, _, ofLabels⟩ := Expansion.ofSource_eq_ok_iff.mp expanded
  rw [LabelTable.find?_eq_some_iff, bound, List.mem_reverse, ofLabels, List.mem_map]
  constructor
  · rintro ⟨⟨d, inDefs, rfl⟩, rfl⟩
    obtain ⟨k, effect, atK, labelled, ofLine, ofIndex⟩ := LabelDef.mem_ofEffects.mp inDefs
    refine ⟨k, effect, atK, labelled, ?_⟩
    simp [LabelDef.bound, ofLine, ofIndex]
  · rintro ⟨k, effect, atK, labelled, rfl⟩
    refine ⟨⟨⟨name, LineEffect.sizeBefore (LineEffect.ofSource arch source) k, 1 + k⟩, ?_, rfl⟩, rfl⟩
    exact LabelDef.mem_ofEffects.mpr ⟨k, effect, atK, labelled, rfl, (Nat.zero_add _).symm⟩

end Assembly

end RiscAsm
