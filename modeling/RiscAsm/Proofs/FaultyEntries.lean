import RiscAsm.Proofs.FirstErrors
import RiscAsm.Proofs.SeparatedEntries

namespace RiscAsm.Coe

open Text

/-- A vector that has its entries between commas, each with blanks around it and none in it. -/
def Listed (vector : Text) (tokens : List Text) : Prop :=
  (Blanks vector ∧ tokens = []) ∨
    (vector.splitOn ',').map trim = tokens ∧ ∀ token ∈ tokens, token ≠ [] ∧ ∀ c ∈ token, ¬ isBlank c

/-- Does an entry stand for a word? -/
def ReadAs (token : Text) (word : Word) : Prop :=
  ∃ digits, (token = digits ∨ token = '+' :: digits) ∧ Numeral.Spells digits word.toNat

/-- What comes of entries: the words that they stand for, or a fault at the first one that stands for none. -/
structure Reported (reads : Text → Word → Prop) (tokens : List Text) (result : Except CoeError (List Word)) :
    Prop where
  accepted : ∀ words, result = .ok words ↔ List.Forall₂ reads tokens words
  refused : ∀ fault, result = .error fault ↔ ∃ k token, fault = .badWord k token ∧ tokens[k]? = some token ∧
    (∀ word, ¬ reads token word) ∧ ∀ earlier ∈ tokens.take k, ∃ word, reads earlier word

variable {vector token : Text} {tokens : List Text} {word : Word}

theorem not_mem_of_mem_splitOn {piece : Text} (member : piece ∈ vector.splitOn ',') : ',' ∉ piece :=
  fun inPiece => (mem_and_ne_of_mem_splitOn member inPiece).2 rfl

/-- One entry with blanks around it is left as that entry, also if lines end among the blanks. -/
theorem entries_body_piece {piece : Text} (noComma : ',' ∉ piece) (nonempty : trim piece ≠ [])
    (whole : ∀ c ∈ trim piece, ¬ isBlank c) {p : Place} (noneHeld : p.held = []) :
    entries (p.body piece) = [trim piece] := by
  obtain ⟨before, after, atStart, atEnd, same⟩ := exists_blanks_trim piece
  have separators : ∀ {blanks}, Blanks blanks → Separators blanks := fun areBlanks c member =>
    Or.inr (areBlanks c member)
  have isEntry : ∀ c ∈ trim piece, c ≠ ',' ∧ ¬ isBlank c := fun c member =>
    ⟨fun comma => noComma (comma ▸ trim_subset member), whole c member⟩
  conv_lhs => rw [same, Place.body_append_token nonempty whole, List.append_assoc]
  rw [entries_separators_append (separators_body (separators atStart) noneHeld),
    entries_append_of_separators (separators_body (separators atEnd) (by simp)), entries_of_solid nonempty isEntry]

theorem entries_body_pieces {pieces : List Text} (hasPieces : pieces ≠ [])
    (known : ∀ piece ∈ pieces, ',' ∉ piece ∧ trim piece ≠ [] ∧ ∀ c ∈ trim piece, ¬ isBlank c) {p : Place}
    (noneHeld : p.held = []) : entries (p.body ([','].intercalate pieces)) = pieces.map trim := by
  induction pieces generalizing p with
  | nil => exact absurd rfl hasPieces
  | cons piece rest ih =>
    obtain ⟨⟨noComma, nonempty, whole⟩, others⟩ := List.forall_mem_cons.mp known
    cases rest with
    | nil => simpa using entries_body_piece noComma nonempty whole noneHeld
    | cons next more =>
      rw [List.intercalate_cons_cons, Place.body_append_token (by simp) (by simp [isBlank]), List.append_assoc,
        List.singleton_append, entries_append_cons (Or.inl rfl), entries_body_piece noComma nonempty whole noneHeld,
        ih (by simp) others (by simp)]
      rfl

/-- Joining the lines of such a vector leaves the list of its entries. -/
theorem entries_listed (listed : Listed vector tokens) : entries (Place.key.body vector) = tokens := by
  rcases listed with ⟨areBlanks, rfl⟩ | ⟨rfl, known⟩
  · have separators : Separators vector := fun c member => Or.inr (areBlanks c member)
    have noEntries := entries_separators_append (separators_body (p := .key) separators rfl) []
    rwa [List.append_nil, entries_nil] at noEntries
  · have pieces : ∀ piece ∈ vector.splitOn ',', ',' ∉ piece ∧ trim piece ≠ [] ∧ ∀ c ∈ trim piece, ¬ isBlank c :=
      fun piece member => ⟨not_mem_of_mem_splitOn member, known _ (List.mem_map_of_mem member)⟩
    have left := entries_body_pieces (List.splitOn_ne_nil ',' vector) pieces (p := .key) rfl
    rwa [List.intercalate_splitOn] at left

theorem readWord_eq_ok_iff {k : Nat} : readWord (token, k) = .ok word ↔ ReadAs token word := by
  have spelled : ReadAs token word ↔ Numeral.word? 16 token = some word.toNat := by
    rw [Numeral.word?_eq_some_iff, and_iff_left word.isLt]
    rfl
  rw [spelled]
  unfold readWord
  cases read : Numeral.word? 16 token with
  | none => simp
  | some n =>
    have bound := (Numeral.word?_eq_some_iff.mp read).2
    simp only [Except.ok.injEq, Option.some.injEq]
    constructor
    · rintro rfl
      rw [BitVec.toNat_ofNat, Nat.mod_eq_of_lt bound]
    · rintro rfl
      exact BitVec.ofNat_toNat ..

theorem readWord_eq_error_iff {k : Nat} {fault : CoeError} :
    readWord (token, k) = .error fault ↔ fault = .badWord k token ∧ ∀ word, ¬ ReadAs token word := by
  simp only [← readWord_eq_ok_iff (k := k)]
  unfold readWord
  cases Numeral.word? 16 token with
  | none => simp [eq_comm]
  | some n => simp

theorem getElem?_map_readWord (tokens : List Text) (k : Nat) :
    (tokens.zipIdx.map readWord)[k]? = tokens[k]?.map fun token => readWord (token, k) := by
  simp [Function.comp_def]

theorem firstError_readWord_iff {k : Nat} {fault : CoeError} : FirstError (tokens.zipIdx.map readWord) k fault ↔
    ∃ token, fault = .badWord k token ∧ tokens[k]? = some token ∧ (∀ word, ¬ ReadAs token word) ∧
      ∀ earlier ∈ tokens.take k, ∃ word, ReadAs earlier word := by
  constructor
  · rintro ⟨here, before⟩
    rw [getElem?_map_readWord, Option.map_eq_some_iff] at here
    obtain ⟨token, found, reads⟩ := here
    obtain ⟨rfl, unreadable⟩ := readWord_eq_error_iff.mp reads
    refine ⟨token, rfl, found, unreadable, fun earlier member => ?_⟩
    obtain ⟨i, bound, rfl⟩ := List.mem_take_iff_getElem.mp member
    obtain ⟨word, reads⟩ := before i (by omega)
    rw [getElem?_map_readWord, Option.map_eq_some_iff] at reads
    obtain ⟨other, found, reads⟩ := reads
    obtain ⟨_, rfl⟩ := List.getElem?_eq_some_iff.mp found
    exact ⟨word, readWord_eq_ok_iff.mp reads⟩
  · rintro ⟨token, rfl, found, unreadable, earlier⟩
    refine ⟨?_, fun i above => ?_⟩
    · rw [getElem?_map_readWord, found, Option.map_some, readWord_eq_error_iff.mpr ⟨rfl, unreadable⟩]
    · obtain ⟨inside, _⟩ := List.getElem?_eq_some_iff.mp found
      have bound : i < tokens.length := above.trans inside
      obtain ⟨word, reads⟩ := earlier tokens[i] (List.mem_take_iff_getElem.mpr ⟨i, by omega, rfl⟩)
      refine ⟨word, ?_⟩
      rw [getElem?_map_readWord, List.getElem?_eq_getElem bound, Option.map_some, readWord_eq_ok_iff.mpr reads]

/-- Entries are read in their order, and a fault is at the first one that cannot be read. -/
theorem reported_mapM (tokens : List Text) : Reported ReadAs tokens (tokens.zipIdx.mapM readWord) where
  accepted := by
    intro words
    rw [mapM_eq_ok_iff]
    generalize 0 = start
    induction tokens generalizing start words with
    | nil => simp
    | cons token rest ih =>
      cases words with
      | nil => simp
      | cons word words => simp [readWord_eq_ok_iff, ih]
  refused := by
    intro fault
    rw [mapM_eq_error_iff]
    exact exists_congr fun k => firstError_readWord_iff

/-- Two ways to read entries report the same if no entry tells them apart. -/
theorem Reported.congr {reads other : Text → Word → Prop} {result : Except CoeError (List Word)}
    (reported : Reported reads tokens result) (same : ∀ token ∈ tokens, ∀ word, reads token word ↔ other token word) :
    Reported other tokens result where
  accepted words := by
    have inTokens : ∀ relation : Text → Word → Prop, List.Forall₂ relation tokens words ↔
        List.Forall₂ (fun token word => token ∈ tokens ∧ relation token word) tokens words := fun relation => by
      rw [List.forall₂_and_left, and_iff_right fun _ member => member]
    have pointwise : (fun token word => token ∈ tokens ∧ reads token word) =
        fun token word => token ∈ tokens ∧ other token word :=
      funext fun token => funext fun word => propext (and_congr_right fun member => same token member word)
    rw [reported.accepted, inTokens reads, inTokens other, pointwise]
  refused fault := by
    rw [reported.refused]
    refine exists_congr fun k => exists_congr fun token => and_congr_right fun _ => and_congr_right fun found => ?_
    have inTokens : token ∈ tokens := List.mem_of_getElem? found
    refine and_congr (forall_congr' fun word => not_congr (same token inTokens word)) ?_
    exact forall₂_congr fun earlier member =>
      exists_congr fun word => same earlier (List.mem_of_mem_take member) word

/-- Without a sign in front, an entry stands for a word if and only if it spells it. -/
theorem readAs_iff_of_no_plus (noPlus : '+' ∉ token.head?) : ReadAs token word ↔ Numeral.Spells token word.toNat := by
  constructor
  · rintro ⟨digits, rfl | rfl, spells⟩
    · exact spells
    · exact absurd rfl noPlus
  · exact fun spells => ⟨token, Or.inl rfl, spells⟩

/-- Every entry that is no word is reported, by its place in the list and its text, the first one if there are several;
and if there is none, the words come in the order of their entries. This is so for every vector between commas, however
it is laid out in lines, but the reader takes a plus sign in front of the digits for a part of the word: apart from
entries that start with one, words are the texts of hexadecimal digits only with a value of at most 32 bits. -/
theorem reports_faulty_entries (p : Preamble) (listed : Listed vector tokens) (noEnd : ';' ∉ vector) (tail : Text) :
    Reported ReadAs tokens (parse (p.text (vector ++ ';' :: tail))) ∧
      ((∀ token ∈ tokens, '+' ∉ token.head?) → Reported (fun token word => Numeral.Spells token word.toNat) tokens
        (parse (p.text (vector ++ ';' :: tail)))) := by
  have reported : Reported ReadAs tokens (parse (p.text (vector ++ ';' :: tail))) := by
    rw [p.parse_text noEnd tail, entries_listed listed]
    exact reported_mapM tokens
  exact ⟨reported, fun noPlus => reported.congr fun token member word => readAs_iff_of_no_plus (noPlus token member)⟩

/-- A comment, the radix with blanks and two semicolons, a line without a meaning, and a key with blanks. -/
def Preamble.spaced : Preamble where
  before := ["; image".toList, "memory_initialization_radix = 16 ;;\r".toList, "depth = 4".toList]
  key := Header.spaced.key
  oneLine := by decide
  known := List.forall_mem_cons.mpr ⟨Or.inr (by decide +kernel), List.forall_mem_cons.mpr
    ⟨Or.inl ⟨2, by decide +kernel⟩, List.forall_mem_singleton.mpr (Or.inr (by decide +kernel))⟩⟩
  radix := ⟨"memory_initialization_radix = 16 ;;\r".toList, by decide, 2, by decide +kernel⟩
  key_oneLine := Header.spaced.key_oneLine
  key_solid := Header.spaced.key_solid

/-- The third entry is reported and not the fourth, although lines end before and after it. -/
theorem reports_faulty_entries_third :
    parse (Preamble.spaced.text ("0a ,\n\t00000000fF,1g\n, +".toList ++ ";\n".toList)) =
      .error (.badWord 2 "1g".toList) := by
  have listed : Listed "0a ,\n\t00000000fF,1g\n, +".toList
      ["0a".toList, "00000000fF".toList, "1g".toList, "+".toList] :=
    Or.inr ⟨by decide +kernel, by simp [isBlank]⟩
  have reported := (reports_faulty_entries Preamble.spaced listed (by decide) ['\n']).1
  refine (reported.refused _).mpr ⟨2, "1g".toList, rfl, rfl, ?_, ?_⟩
  · exact (readWord_eq_error_iff.mp (by decide : readWord ("1g".toList, 2) = .error (.badWord 2 "1g".toList))).2
  · refine List.forall_mem_cons.mpr ⟨⟨0x0a, ?_⟩, List.forall_mem_singleton.mpr ⟨0xff, ?_⟩⟩
    · exact readWord_eq_ok_iff.mp (by decide : readWord ("0a".toList, 0) = _)
    · exact readWord_eq_ok_iff.mp (by decide : readWord ("00000000fF".toList, 1) = _)

/-- An entry with a plus sign is no text of hexadecimal digits, but it is accepted without a fault. -/
theorem plus_sign_passes : ∃ p : Preamble, Listed "\n+1".toList ["+1".toList] ∧
    p.text ("\n+1".toList ++ ";\n".toList) =
      "memory_initialization_radix=16;\nmemory_initialization_vector=\n+1;\n".toList ∧
    parse (p.text ("\n+1".toList ++ ";\n".toList)) = .ok [1#32] ∧
    ¬ Reported (fun token word => Numeral.Spells token word.toNat) ["+1".toList]
      (parse (p.text ("\n+1".toList ++ ";\n".toList))) := by
  have accepted : parse (Header.plain.toPreamble.text ("\n+1".toList ++ ";\n".toList)) = .ok [1#32] := by decide +kernel
  refine ⟨Header.plain.toPreamble, Or.inr ⟨by decide +kernel, by simp [isBlank]⟩, by decide +kernel, accepted, ?_⟩
  intro reported
  have spelled := (reported.accepted _).mp accepted
  cases spelled with
  | cons spells _ => exact spells.no_plus (by decide)

end RiscAsm.Coe
