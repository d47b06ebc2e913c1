import RiscAsm.Proofs.AssembledProgram
import RiscAsm.Proofs.RenderedImage

namespace RiscAsm

open Text

/-- A statement with its format, such that its text is a line for one instruction. -/
structure Direct (arch : Arch) (row : Statement × Format) : Prop where
  line : row.1.text ≠ [] ∧ IsLine row.1.text
  effect : ∀ n, LineEffect.ofLine arch n row.1.text = ⟨none, .ok [⟨row.1.mnemonic, row.1.operands, row.2, n, none⟩]⟩

theorem direct_operandTexts {arch : Arch} {mnemonic : Text} {format : Format}
    (listed : (mnemonic, format) ∈ arch.formats) (word address : Word) :
    Direct arch (⟨mnemonic, printed (format.operandTexts word address)⟩, format) where
  line :=
    have writable := Arch.writable_operandTexts listed word address
    ⟨writable.text_ne_nil, writable.isLine_text⟩
  effect := by
    intro n
    obtain ⟨_, _, noPseudo⟩ := Arch.mnemonic_of_mem_formats listed
    have expanded := Statement.expand_of_format? (s := ⟨mnemonic, printed (format.operandTexts word address)⟩) noPseudo
      (Arch.format?_eq_some.mpr listed) n
    unfold LineEffect.ofLine
    rw [(Arch.writable_operandTexts listed word address).read_text]
    simp only [expanded]

theorem LabelDef.ofEffects_eq_nil {effects : List LineEffect} (unlabelled : ∀ effect ∈ effects, effect.label = none)
    (index line : Nat) : ofEffects index line effects = [] := by
  induction effects generalizing index line with
  | nil => rfl
  | cons effect effects ih =>
    rw [ofEffects, unlabelled effect List.mem_cons_self,
      ih fun other member => unlabelled other (List.mem_cons_of_mem _ member)]
    rfl

/-- A source of direct lines expands to their instructions and defines no label. -/
theorem Expansion.ofSource_direct {arch : Arch} {rows : List (Statement × Format)}
    (direct : ∀ row ∈ rows, Direct arch row) :
    Expansion.ofSource arch (['\n'].intercalate (rows.map fun row => row.1.text)) =
      .ok ⟨arch, ((rows.zipIdx 1).map fun n => ⟨n.1.1.mnemonic, n.1.1.operands, n.1.2, n.2, none⟩).toArray, #[]⟩ := by
  have read : lines (['\n'].intercalate (rows.map fun row => row.1.text)) = rows.map fun row => row.1.text := by
    refine lines_intercalate ?_
    intro line member
    obtain ⟨row, inRows, rfl⟩ := List.mem_map.mp member
    exact (direct row inRows).line
  have effects : LineEffect.ofSource arch (['\n'].intercalate (rows.map fun row => row.1.text)) =
      (rows.zipIdx 1).map fun n => ⟨none, .ok [⟨n.1.1.mnemonic, n.1.1.operands, n.1.2, n.2, none⟩]⟩ := by
    unfold LineEffect.ofSource LineEffect.ofLines
    rw [read, List.zipIdx_map, List.map_map]
    refine List.map_congr_left ?_
    intro n member
    exact (direct n.1 (List.fst_mem_of_mem_zipIdx member)).effect n.2
  rw [Expansion.ofSource_eq_ok_iff, effects]
  refine ⟨?_, rfl, ?_, ?_⟩
  · intro effect member
    obtain ⟨n, _, rfl⟩ := List.mem_map.mp member
    exact ⟨_, rfl⟩
  · rw [List.flatMap_map]
    exact List.map_eq_flatMap
  · symm
    refine LabelDef.ofEffects_eq_nil ?_ 0 1
    intro effect member
    obtain ⟨n, _, rfl⟩ := List.mem_map.mp member
    rfl

theorem Assembly.ofSource_direct {arch : Arch} {rows : List (Statement × Format)} {words : List Word}
    (direct : ∀ row ∈ rows, Direct arch row) (sameLength : rows.length = words.length)
    (encoded : ∀ i row word, rows[i]? = some row → words[i]? = some word →
      PlacedInstr.encode arch {} ⟨⟨row.1.mnemonic, row.1.operands, row.2, i + 1, none⟩, addressOf i⟩ = .ok word) :
    ∃ b, Assembly.ofSource arch (['\n'].intercalate (rows.map fun row => row.1.text)) = .ok b ∧ b.words = words := by
  have expanded := Expansion.ofSource_direct direct
  refine ⟨⟨⟨arch, Program.place _, {}⟩, words⟩, ofSource_eq_ok_iff.mpr ⟨_, expanded, rfl, rfl, rfl, ?_⟩, rfl⟩
  rw [List.forall₂_iff_get]
  refine ⟨by simp [Program.place_length, sameLength], ?_⟩
  intro i inside inWords
  have inRows : i < rows.length := sameLength ▸ inWords
  have this := encoded i rows[i] words[i] (List.getElem?_eq_getElem inRows) (List.getElem?_eq_getElem inWords)
  simpa [Program.place, Nat.add_comm] using this

/-- The statement and format of the word of an instruction at its address. -/
def PlacedInstr.shown (instr : PlacedInstr) (word : Word) : Statement × Format :=
  (⟨instr.mnemonic, printed (instr.format.operandTexts word instr.address)⟩, instr.format)

theorem toNat_addressOf_mod (i : Nat) : (addressOf i).toNat % 4 = 0 := by
  unfold addressOf
  rw [BitVec.toNat_ofNat]
  omega

/-- The printed word of an instruction is encoded to that word again, whatever labels there are. -/
theorem PlacedInstr.encode_shown {arch : Arch} {labels other : LabelTable} {instr : PlacedInstr} {word : Word}
    (listed : (instr.mnemonic, instr.format) ∈ arch.formats) (aligned : instr.address.toNat % 4 = 0)
    (encoded : instr.encode arch labels = .ok word) (named : other.Named) (line : Nat) (origin : Option Pseudo) :
    PlacedInstr.encode arch other ⟨⟨instr.mnemonic, (instr.shown word).1.operands, instr.format, line, origin⟩,
      instr.address⟩ = .ok word := by
  obtain ⟨described, _, packed⟩ := describes_of_encode listed aligned encoded
  refine (encode_eq_ok_iff ?_).mpr ⟨instr.format.meaning word instr.address, ?_, packed⟩
  · exact Arch.arch_of_mem_formats listed
  have read : instr.format.read? other (instr.format.operandTexts word instr.address) =
      some (instr.format.meaning word instr.address) := Format.read?_operandTexts named described
  rwa [← split_printed (instr.format.plain_operandTexts word instr.address)] at read

namespace Assembly

variable {arch : Arch} {source : Text} {a : Assembly}

theorem disassemble?_words (accepted : ofSource arch source = .ok a) :
    a.words.zipIdx.map (fun numbered => arch.disassemble? numbered.1 (addressOf numbered.2)) =
      (List.zipWith PlacedInstr.shown a.program.instrs a.words).map fun row => some row.1 := by
  refine List.ext_getElem? fun i => ?_
  rw [List.getElem?_map, List.getElem?_zipIdx, List.getElem?_map, List.getElem?_zipWith]
  cases atIndex : a.program.instrs[i]? with
  | none =>
    have outside : a.words[i]? = none := by
      rw [List.getElem?_eq_none_iff] at atIndex ⊢
      rwa [length_words accepted]
    rw [outside]
    rfl
  | some instr =>
    obtain ⟨listed, address, word, atWord, encoded⟩ := encoded_of_getElem? accepted atIndex
    have aligned : instr.address.toNat % 4 = 0 := by rw [address]; exact toNat_addressOf_mod i
    have described := (PlacedInstr.describes_of_encode listed aligned encoded).1
    have shown := Arch.disassemble?_of_describes listed described instr.address
    rw [atWord]
    simpa [PlacedInstr.shown, ← address] using shown

theorem ofSource_shown (accepted : ofSource arch source = .ok a) :
    ∃ b, ofSource arch (['\n'].intercalate
      ((List.zipWith PlacedInstr.shown a.program.instrs a.words).map fun row => row.1.text)) = .ok b ∧
      b.words = a.words := by
  refine ofSource_direct ?_ (by simp [length_words accepted]) ?_
  · intro row member
    obtain ⟨i, atRow⟩ := List.mem_iff_getElem?.mp member
    obtain ⟨instr, word, atIndex, _, rfl⟩ := List.getElem?_zipWith_eq_some.mp atRow
    exact direct_operandTexts (encoded_of_getElem? accepted atIndex).1 word instr.address
  · intro i row word atRow atWord
    obtain ⟨instr, shownWord, atIndex, atShown, rfl⟩ := List.getElem?_zipWith_eq_some.mp atRow
    obtain ⟨listed, address, encodedWord, atEncoded, encoded⟩ := encoded_of_getElem? accepted atIndex
    cases Option.some.inj (atWord.symm.trans atEncoded)
    cases Option.some.inj (atShown.symm.trans atEncoded)
    have aligned : instr.address.toNat % 4 = 0 := by rw [address]; exact toNat_addressOf_mod i
    have again := PlacedInstr.encode_shown listed aligned encoded LabelTable.named_empty (i + 1) none
    rw [address] at again
    exact again

/-- The words of an assembled source survive the way through an image file and through the disassembler: the image
reads back as these words, each word has a statement, and the lines of these statements are assembled to the same
words in the same order. -/
theorem round_trip (accepted : ofSource arch source = .ok a) :
    (∀ comment : Option Text, (∀ c ∈ comment, '\n' ∉ c) → Coe.parse (Coe.render a.words comment) = .ok a.words) ∧
    ∃ statements : List Statement,
      a.words.zipIdx.map (fun numbered => arch.disassemble? numbered.1 (addressOf numbered.2)) = statements.map some ∧
      ∃ b, ofSource arch (['\n'].intercalate (statements.map Statement.text)) = .ok b ∧ b.words = a.words := by
  constructor
  · intro comment oneLine
    simpa using Coe.parse_render_append a.words oneLine []
  · refine ⟨(List.zipWith PlacedInstr.shown a.program.instrs a.words).map (·.1), ?_, ?_⟩
    · simpa using disassemble?_words accepted
    · simpa using ofSource_shown accepted

/-- A loop with a branch back and a jump past its end. -/
theorem round_trip_loop :
    ∃ a, ofSource .riscv "loop: addi x1, x1, -1\nbeq x1, x0, end\nj loop\nend:".toList = .ok a ∧
      a.words = [0xfff08093#32, 0x00008463#32, 0xff9ff06f#32] ∧
      Coe.parse (Coe.render a.words (some "RISC-V".toList)) = .ok a.words ∧
      ∃ statements : List Statement,
        a.words.zipIdx.map (fun numbered => Arch.riscv.disassemble? numbered.1 (addressOf numbered.2)) =
          statements.map some ∧
        ∃ b, ofSource .riscv (['\n'].intercalate (statements.map Statement.text)) = .ok b ∧ b.words = a.words := by
  have evaluated : (ofSource .riscv "loop: addi x1, x1, -1\nbeq x1, x0, end\nj loop\nend:".toList).toOption.map
      Assembly.words = some [0xfff08093#32, 0x00008463#32, 0xff9ff06f#32] := by decide +kernel
  obtain ⟨a, ofOption, words⟩ := Option.map_eq_some_iff.mp evaluated
  have accepted := toOption_eq_some.mp ofOption
  obtain ⟨image, again⟩ := round_trip accepted
  exact ⟨a, accepted, words, image (some "RISC-V".toList) (by decide), again⟩

end Assembly

end RiscAsm
