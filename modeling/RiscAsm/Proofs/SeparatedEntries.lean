import RiscAsm.Proofs.LiteralGrammar
import RiscAsm.Proofs.VectorText

namespace RiscAsm.Coe

open Text

def Separators (run : Text) : Prop := ∀ c ∈ run, c = ',' ∨ isBlank c

variable {run last : Text}

/-- However many separators stand between two texts, their entries come one after the other. -/
theorem entries_append_separators (separators : Separators run) (nonempty : run ≠ []) (a b : Text) :
    entries (a ++ run ++ b) = entries a ++ entries b := by
  induction run generalizing a with
  | nil => exact absurd rfl nonempty
  | cons c run ih =>
    obtain ⟨first, others⟩ := List.forall_mem_cons.mp separators
    rw [List.append_assoc, List.cons_append, entries_append_cons first]
    by_cases single : run = []
    · rw [single, List.nil_append]
    · have later := ih others single []
      rw [entries_nil, List.nil_append, List.nil_append] at later
      rw [later]

theorem entries_separators_append (separators : Separators run) (s : Text) : entries (run ++ s) = entries s := by
  by_cases empty : run = []
  · rw [empty, List.nil_append]
  · simpa [entries_nil] using entries_append_separators separators empty [] s

theorem entries_append_of_separators (separators : Separators run) (s : Text) : entries (s ++ run) = entries s := by
  by_cases empty : run = []
  · rw [empty, List.append_nil]
  · simpa [entries_nil] using entries_append_separators separators empty s []

theorem separators_body (separators : Separators run) {p : Place} (noneHeld : p.held = []) :
    Separators (p.body run) := by
  intro c member
  have := p.body_subset run member
  rw [noneHeld, List.nil_append] at this
  exact separators c this

/-- A word spelled in hexadecimal digits, and the separators in front of it. -/
structure Entry where
  run : Text
  token : Text
  word : Word
  separators : Separators run
  spells : Numeral.Spells token word.toNat

def Entry.text (e : Entry) : Text := e.run ++ e.token

/-- Does the reader see that a run of separators divides two entries? A comma always does. Blanks do so only among
themselves on a line after that of the key. -/
def separates (onKey : Bool) (run : Text) : Bool :=
  run.contains ',' || (!run.isEmpty && !onKey && !run.contains '\n')

def staysOnKey (onKey : Bool) (run : Text) : Bool := onKey && !run.contains '\n'

/-- The entries that the reader sees after the start of one of them. -/
def mergedFrom (onKey : Bool) (current : Text) : List Entry → List Text
  | [] => [current]
  | e :: rest =>
    if separates onKey e.run then current :: mergedFrom (staysOnKey onKey e.run) e.token rest
    else mergedFrom (staysOnKey onKey e.run) (current ++ e.token) rest

/-- The entries that the reader sees, among them several as one if nothing that it sees divides them. -/
def merged : List Entry → List Text
  | [] => []
  | e :: rest => mergedFrom (staysOnKey true e.run) e.token rest

def SeparatedFrom (onKey : Bool) : List Entry → Prop
  | [] => True
  | e :: rest => separates onKey e.run ∧ SeparatedFrom (staysOnKey onKey e.run) rest

/-- Every run between two entries divides them for the reader. -/
def Separated : List Entry → Prop
  | [] => True
  | e :: rest => SeparatedFrom (staysOnKey true e.run) rest

/-- Nothing is left of a run that does not separate. -/
theorem body_eq_nil_iff (separators : Separators run) (onKey : Bool) :
    (Place.written onKey).body run = [] ↔ separates onKey run = false := by
  by_cases comma : ',' ∈ run
  · have kept := Place.mem_kept_of_solid (c := ',') (by decide) comma (Place.written onKey)
    refine iff_of_false (fun empty => ?_) (by simp [separates, comma])
    rw [(List.append_eq_nil_iff.mp empty).1] at kept
    cases kept
  · have areBlanks : Blanks run := fun c member => (separators c member).resolve_left fun same => comma (same ▸ member)
    rw [Place.body, Place.kept_blanks areBlanks, List.nil_append]
    by_cases feed : '\n' ∈ run
    · simp [Place.after_blanks_of_feed areBlanks feed, Place.held, separates, comma, feed]
    · cases onKey with
      | true =>
        have place : (Place.key.after run).held = [] := by
          refine Place.held_of_onKey ?_
          rw [Place.onKey_after]
          simp [Place.onKey, feed]
        simp [Place.written, place, separates, comma]
      | false => simp [Place.written, Place.after_inside_blanks areBlanks feed, Place.held, separates, comma, feed]

theorem body_entry (e : Entry) (p : Place) (s : Text) :
    p.body (e.text ++ s) = p.body e.run ++ e.token ++ (Place.written (staysOnKey p.onKey e.run)).body s := by
  have solid : ∀ c ∈ e.token, ¬ isBlank c := fun c member => (isPlain_iff.mp (e.spells.plain.2 c member)).1
  rw [Entry.text, Place.body_append_token e.spells.plain.1 solid, Place.onKey_after]
  rfl

/-- The reader goes through a vector entry by entry and joins to the current one what it does not see divided from
it. -/
theorem entries_body {current : Text} (plain : Plain current) (onKey : Bool) (es : List Entry)
    (atEnd : Separators last) :
    entries (current ++ (Place.written onKey).body (es.flatMap Entry.text ++ last)) = mergedFrom onKey current es := by
  induction es generalizing current onKey with
  | nil => exact (entries_append_of_separators (separators_body atEnd (by simp)) _).trans (entries_of_plain plain)
  | cons e rest ih =>
    have token := e.spells.plain
    rw [List.flatMap_cons, List.append_assoc, body_entry, Place.onKey_written, mergedFrom]
    cases divides : separates onKey e.run with
    | true =>
      have nonempty : (Place.written onKey).body e.run ≠ [] := by simp [body_eq_nil_iff e.separators, divides]
      have next := entries_append_separators (separators_body e.separators (Place.held_written onKey)) nonempty current
      rw [List.append_assoc, ← List.append_assoc current, next, entries_of_plain plain, ih token]
      rfl
    | false =>
      have empty := (body_eq_nil_iff e.separators onKey).mpr divides
      rw [empty, List.nil_append, ← List.append_assoc, ih (plain.append token.2)]
      rfl

theorem entries_vector (es : List Entry) (atEnd : Separators last) :
    entries (Place.key.body (es.flatMap Entry.text ++ last)) = merged es := by
  cases es with
  | nil =>
    have noEntries := entries_separators_append (separators_body (p := .key) atEnd rfl) []
    rwa [List.append_nil, entries_nil] at noEntries
  | cons e rest =>
    rw [List.flatMap_cons, List.append_assoc, body_entry, List.append_assoc,
      entries_separators_append (separators_body e.separators rfl)]
    exact entries_body e.spells.plain _ rest atEnd

theorem mergedFrom_of_separated {onKey : Bool} {es : List Entry} (separated : SeparatedFrom onKey es) (current : Text) :
    mergedFrom onKey current es = current :: es.map Entry.token := by
  induction es generalizing onKey current with
  | nil => rfl
  | cons e rest ih =>
    obtain ⟨divides, others⟩ := separated
    rw [mergedFrom, if_pos divides, ih others, List.map_cons]

theorem length_mergedFrom_le (onKey : Bool) (current : Text) (es : List Entry) :
    (mergedFrom onKey current es).length ≤ es.length + 1 := by
  induction es generalizing onKey current with
  | nil => exact le_rfl
  | cons e rest ih =>
    have later := ih (staysOnKey onKey e.run)
    rw [mergedFrom]
    split
    · simpa using later e.token
    · exact (later _).trans (Nat.le_succ _)

/-- Where the reader sees as many entries as there are, it sees all of them divided. -/
theorem separatedFrom_of_length {onKey : Bool} {current : Text} {es : List Entry}
    (length : (mergedFrom onKey current es).length = es.length + 1) : SeparatedFrom onKey es := by
  induction es generalizing onKey current with
  | nil => trivial
  | cons e rest ih =>
    rw [mergedFrom] at length
    split at length
    · rename_i divides
      exact ⟨divides, ih (by simpa using length)⟩
    · have few := length_mergedFrom_le (staysOnKey onKey e.run) (current ++ e.token) rest
      simp only [List.length_cons] at length
      omega

theorem merged_of_separated {es : List Entry} (separated : Separated es) : merged es = es.map Entry.token := by
  cases es with
  | nil => rfl
  | cons e rest => exact mergedFrom_of_separated separated e.token

theorem separated_of_length {es : List Entry} (length : (merged es).length = es.length) : Separated es := by
  cases es with
  | nil => trivial
  | cons e rest => exact separatedFrom_of_length length

theorem mapM_readWord_tokens (es : List Entry) (start : Nat) :
    ((es.map Entry.token).zipIdx start).mapM readWord = .ok (es.map Entry.word) := by
  rw [mapM_eq_ok_iff]
  induction es generalizing start with
  | nil => exact .nil
  | cons e rest ih =>
    refine .cons ?_ (ih (start + 1))
    have read := Numeral.word?_eq_some_iff.mpr ⟨⟨e.token, Or.inl rfl, e.spells⟩, e.word.isLt⟩
    simp [readWord, read]

theorem semicolon_not_mem_vector (es : List Entry) (atEnd : Separators last) :
    ';' ∉ es.flatMap Entry.text ++ last := by
  have noEnd : ∀ {run}, Separators run → ';' ∉ run := fun separators member =>
    absurd (separators ';' member) (by decide)
  intro member
  rcases List.mem_append.mp member with inEntry | inLast
  · obtain ⟨e, _, inText⟩ := List.mem_flatMap.mp inEntry
    rcases List.mem_append.mp inText with inRun | inToken
    · exact noEnd e.separators inRun
    · exact e.spells.no_semicolon inToken
  · exact noEnd atEnd inLast

/-- An image gives back the words of its entries, in whatever way these are spelled, if and only if the runs of
separators between them have commas in them, or else have no line feed and come after one. Any other run is lost when
the lines are joined, and the digits on both sides of it are read as one entry. -/
theorem reads_separated_entries (h : Header) (es : List Entry) (atEnd : Separators last) (tail : Text) :
    parse (h.text (es.flatMap Entry.text ++ last ++ ';' :: tail)) = (merged es).zipIdx.mapM readWord ∧
      (parse (h.text (es.flatMap Entry.text ++ last ++ ';' :: tail)) = .ok (es.map Entry.word) ↔ Separated es) := by
  have read := h.parse_text (semicolon_not_mem_vector es atEnd) tail
  rw [entries_vector es atEnd] at read
  refine ⟨read, ?_⟩
  rw [read]
  constructor
  · intro accepted
    have length := (mapM_eq_ok_iff.mp accepted).length_eq
    exact separated_of_length (by simpa using length)
  · intro separated
    rw [merged_of_separated separated]
    exact mapM_readWord_tokens es 0

/-- The header as images are rendered, and with blanks in it. -/
def Header.plain : Header where
  radix := radixKey ++ "16;".toList
  key := vectorKey
  radix_oneLine := by decide
  radix_solid := by decide
  key_oneLine := by decide
  key_solid := by decide

def Header.spaced : Header where
  radix := "memory_initialization_radix = 16 ;".toList
  key := "  memory_initialization_vector = ".toList
  radix_oneLine := by decide
  radix_solid := by decide +kernel
  key_oneLine := by decide
  key_solid := by decide +kernel

/-- An entry of one digit. -/
def Entry.ofDigit (run : Text) (separators : Separators run) (d : Fin 16) : Entry where
  run := run
  token := [Nat.digitChar d]
  word := BitVec.ofNat 32 d
  separators := separators
  spells := by
    have value : (BitVec.ofNat 32 d.val).toNat = d.val := by
      have small := d.isLt
      rw [BitVec.toNat_ofNat]
      omega
    rw [value]
    exact .digit d.isLt

/-- An entry on the line of the key, one after a comma, and one after a blank on a later line. -/
def spacedEntries : List Entry :=
  [.ofDigit [] (by simp [Separators]) 10, .ofDigit ",\n\t".toList (by simp [Separators, isBlank]) 2,
    .ofDigit " ".toList (by simp [Separators, isBlank]) 3]

/-- The blank divides the last two entries, which it would not do on the line of the key. -/
theorem reads_separated_entries_of_blank :
    parse "memory_initialization_radix = 16 ;\n  memory_initialization_vector = a,\n\t2 3\n;rest".toList =
      .ok [10#32, 2#32, 3#32] := by
  have atEnd : Separators "\n".toList := by simp [Separators, isBlank]
  have whole : Header.spaced.text (spacedEntries.flatMap Entry.text ++ "\n".toList ++ ';' :: "rest".toList) =
      "memory_initialization_radix = 16 ;\n  memory_initialization_vector = a,\n\t2 3\n;rest".toList := by decide +kernel
  rw [← whole]
  exact (reads_separated_entries Header.spaced spacedEntries atEnd "rest".toList).2.mpr ⟨by decide, by decide, trivial⟩

theorem separators_feed : Separators ['\n'] := by simp [Separators, isBlank]

/-- A line feed alone does not divide two entries: the image of 1 and 2 on lines of their own is read as that of 18. -/
theorem line_feed_joins_entries :
    ∃ es : List Entry, (∀ e ∈ es, e.run = ['\n']) ∧ es.map Entry.token = [['1'], ['2']] ∧
      es.map Entry.word = [1#32, 2#32] ∧
      Header.plain.text (es.flatMap Entry.text ++ [] ++ ";\n".toList) =
        "memory_initialization_radix=16;\nmemory_initialization_vector=\n1\n2;\n".toList ∧
      parse (Header.plain.text (es.flatMap Entry.text ++ [] ++ ";\n".toList)) = .ok [0x12#32] ∧
      parse (Header.plain.text (es.flatMap Entry.text ++ [] ++ ";\n".toList)) ≠ .ok (es.map Entry.word) := by
  refine ⟨[.ofDigit ['\n'] separators_feed 1, .ofDigit ['\n'] separators_feed 2], ?_, rfl, rfl, ?_, ?_, ?_⟩
  · simp [Entry.ofDigit]
  · decide +kernel
  · decide +kernel
  · decide +kernel

end RiscAsm.Coe
