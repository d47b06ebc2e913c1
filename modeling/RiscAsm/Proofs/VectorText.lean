import RiscAsm.Proofs.BlankText
import RiscAsm.Proofs.RenderedImage

namespace RiscAsm.Coe

open Text

/-- Where the reader stands in the characters of a vector: on the line of its key, at the start of a later line, or
after something that such a line keeps, with the blanks it has seen since. -/
inductive Place where
  | key
  | start
  | inside (blanks : Text)
  deriving DecidableEq

namespace Place

/-- The blanks that are kept if their line goes on after them. -/
def held : Place → Text
  | inside blanks => blanks
  | key | start => []

def onKey : Place → Bool
  | key => true
  | start | inside _ => false

/-- The place after a character that is kept. -/
def written (onKey : Bool) : Place := if onKey then key else inside []

def next (p : Place) (c : Char) : Place :=
  if c = '\n' then start
  else if isBlank c then
    match p with
    | key => key
    | start => start
    | inside blanks => inside (blanks ++ [c])
  else written p.onKey

/-- What the reader adds to the text of the vector when it takes a character. -/
def added (p : Place) (c : Char) : Text := if isBlank c then [] else p.held ++ [c]

def after (p : Place) (s : Text) : Place := s.foldl next p

/-- What the reader keeps of a text. The blanks at its end are not kept yet. -/
def kept (p : Place) : Text → Text
  | [] => []
  | c :: s => p.added c ++ (p.next c).kept s

/-- What the reader has of a text when something that is no blank comes after it on the same line. -/
def body (p : Place) (s : Text) : Text := p.kept s ++ (p.after s).held

variable {blanks : Text}

theorem after_append (p : Place) (s t : Text) : p.after (s ++ t) = (p.after s).after t := List.foldl_append ..

theorem kept_append (p : Place) (s t : Text) : p.kept (s ++ t) = p.kept s ++ (p.after s).kept t := by
  induction s generalizing p with
  | nil => rfl
  | cons c s ih => simp [kept, after, ih (p.next c)]

theorem next_feed (p : Place) : p.next '\n' = start := rfl

theorem kept_feed (p : Place) (s : Text) : p.kept ('\n' :: s) = start.kept s := by
  simp [kept, added, next_feed, show isBlank '\n' from by decide]

theorem next_solid {c : Char} (solid : ¬ isBlank c) (p : Place) : p.next c = written p.onKey := by
  have noFeed : c ≠ '\n' := fun same => solid (same ▸ by decide)
  simp [next, noFeed, solid]

theorem kept_cons_solid {c : Char} (solid : ¬ isBlank c) (p : Place) (s : Text) :
    p.kept (c :: s) = p.held ++ c :: (written p.onKey).kept s := by
  simp [kept, added, solid, next_solid solid]

@[simp] theorem held_written (onKey : Bool) : (written onKey).held = [] := by cases onKey <;> rfl

@[simp] theorem onKey_written (onKey : Bool) : (written onKey).onKey = onKey := by cases onKey <;> rfl

/-- Nothing is held back on the line of the key. -/
theorem held_of_onKey {p : Place} (here : p.onKey) : p.held = [] := by
  cases p with
  | inside blanks => cases here
  | key | start => rfl

theorem onKey_next (p : Place) (c : Char) : (p.next c).onKey = (p.onKey && !(c == '\n')) := by
  unfold next
  split
  · simp [*, onKey]
  · split
    · cases p <;> simp [*, onKey]
    · simp [*]

/-- The line of the key is left with the first line feed and for good. -/
theorem onKey_after (p : Place) (s : Text) : (p.after s).onKey = (p.onKey && !s.contains '\n') := by
  induction s generalizing p with
  | nil => simp [after]
  | cons c s ih =>
    have step : (p.after (c :: s)).onKey = ((p.next c).after s).onKey := rfl
    rw [step, ih, onKey_next, List.contains_cons, Bool.not_or, Bool.and_assoc, BEq.comm]

theorem kept_blanks (areBlanks : Blanks blanks) (p : Place) : p.kept blanks = [] := by
  induction blanks generalizing p with
  | nil => rfl
  | cons c blanks ih =>
    obtain ⟨blank, others⟩ := List.forall_mem_cons.mp areBlanks
    simp [kept, added, blank, ih others]

theorem after_start_blanks (areBlanks : Blanks blanks) : start.after blanks = start := by
  induction blanks with
  | nil => rfl
  | cons c blanks ih =>
    obtain ⟨blank, others⟩ := List.forall_mem_cons.mp areBlanks
    have stays : start.next c = start := by simp [next, blank]
    simpa [after, stays] using ih others

theorem after_inside_blanks (areBlanks : Blanks blanks) (noFeed : '\n' ∉ blanks) (held : Text) :
    (inside held).after blanks = inside (held ++ blanks) := by
  induction blanks generalizing held with
  | nil => simp [after]
  | cons c blanks ih =>
    obtain ⟨blank, others⟩ := List.forall_mem_cons.mp areBlanks
    obtain ⟨other, noneLater⟩ := not_or.mp (mt List.mem_cons.mpr noFeed)
    have stays : (inside held).next c = inside (held ++ [c]) := by simp [next, blank, Ne.symm other]
    simpa [after, stays] using ih others noneLater (held ++ [c])

/-- Blanks with a line feed among them lead to the start of a line. -/
theorem after_blanks_of_feed (areBlanks : Blanks blanks) (feed : '\n' ∈ blanks) (p : Place) :
    p.after blanks = start := by
  obtain ⟨before, later, rfl⟩ := List.append_of_mem feed
  have laterBlanks : Blanks later := fun c member => areBlanks c (by simp [member])
  rw [after_append]
  exact after_start_blanks laterBlanks

/-- A text without blanks is kept as it is, after the blanks that were held before it. -/
theorem kept_token {token : Text} (nonempty : token ≠ []) (solid : ∀ c ∈ token, ¬ isBlank c) (p : Place) :
    p.kept token = p.held ++ token ∧ p.after token = written p.onKey := by
  induction token generalizing p with
  | nil => exact absurd rfl nonempty
  | cons c token ih =>
    obtain ⟨first, others⟩ := List.forall_mem_cons.mp solid
    have place : p.after (c :: token) = (written p.onKey).after token := by simp [after, next_solid first]
    rw [kept_cons_solid first, place]
    cases token with
    | nil => exact ⟨rfl, rfl⟩
    | cons d rest => simpa using ih (List.cons_ne_nil _ _) others (written p.onKey)

theorem mem_kept_of_solid {c : Char} (solid : ¬ isBlank c) {s : Text} (member : c ∈ s) (p : Place) : c ∈ p.kept s := by
  obtain ⟨before, later, rfl⟩ := List.append_of_mem member
  rw [kept_append, kept_cons_solid solid]
  simp

theorem added_held_subset (p : Place) (c : Char) : p.added c ++ (p.next c).held ⊆ p.held ++ [c] := by
  by_cases blank : isBlank c
  · have noneNow : p.added c = [] := by simp [added, blank]
    rw [noneNow, List.nil_append]
    by_cases feed : c = '\n'
    · subst feed
      exact List.nil_subset _
    · cases p <;> simp [next, held, blank, feed]
  · simp [added, blank, next_solid blank]

/-- What is kept or still held was in the text or was held before it. -/
theorem body_subset (p : Place) (s : Text) : p.body s ⊆ p.held ++ s := by
  induction s generalizing p with
  | nil => simp [body, kept, after]
  | cons c s ih =>
    have first := p.added_held_subset c
    have later := ih (p.next c)
    simp only [body, List.append_subset] at first later
    simp only [body, kept, after, List.foldl_cons, List.append_assoc, List.append_subset]
    have ofRest : (p.next c).held ++ s ⊆ p.held ++ c :: s :=
      List.append_subset.mpr ⟨List.Subset.trans first.2 (by simp), by simp⟩
    exact ⟨List.Subset.trans first.1 (by simp), List.Subset.trans later.1 ofRest, List.Subset.trans later.2 ofRest⟩

/-- A text without blanks divides what comes before it from what comes after it. -/
theorem body_append_token {token : Text} (nonempty : token ≠ []) (solid : ∀ c ∈ token, ¬ isBlank c) (p : Place)
    (s t : Text) : p.body (s ++ token ++ t) = p.body s ++ token ++ (written (p.after s).onKey).body t := by
  obtain ⟨whole, place⟩ := kept_token nonempty solid (p.after s)
  simp [body, kept_append, after_append, whole, place]

/-- On the line of the key no blank is kept. -/
theorem kept_key {line : Text} (noFeed : '\n' ∉ line) : key.kept line = solid line := by
  induction line with
  | nil => rfl
  | cons c line ih =>
    obtain ⟨other, noneLater⟩ := not_or.mp (mt List.mem_cons.mpr noFeed)
    by_cases blank : isBlank c
    · have stays : key.next c = key := by simp [next, Ne.symm other, blank]
      simp [kept, added, blank, stays, ih noneLater, solid]
    · rw [kept_cons_solid blank]
      simp [held, onKey, written, ih noneLater, solid, blank]

theorem kept_inside {line : Text} (noFeed : '\n' ∉ line) (nonempty : line ≠ [])
    (atEnd : ∀ c ∈ line.getLast?, ¬ isBlank c) (held : Text) : (inside held).kept line = held ++ line := by
  induction line generalizing held with
  | nil => exact absurd rfl nonempty
  | cons c line ih =>
    obtain ⟨other, noneLater⟩ := not_or.mp (mt List.mem_cons.mpr noFeed)
    cases line with
    | nil => simp [kept, added, Place.held, atEnd c rfl]
    | cons d rest =>
      have later := ih noneLater (List.cons_ne_nil d rest) (by simpa using atEnd)
      by_cases blank : isBlank c
      · have stays : (inside held).next c = inside (held ++ [c]) := by simp [next, blank, Ne.symm other]
        rw [kept, stays, later]
        simp [added, blank]
      · rw [kept_cons_solid blank]
        simp [Place.held, onKey, written, later]

/-- A later line is kept without the blanks around it. -/
theorem kept_start {line : Text} (noFeed : '\n' ∉ line) : start.kept line = trim line := by
  obtain ⟨before, later, atStart, atEnd, whole⟩ := exists_blanks_trim line
  obtain ⟨solidStart, solidEnd⟩ := trimmed_iff.mp (trimmed_trim line)
  have noFeed : '\n' ∉ trim line := fun member => noFeed (trim_subset member)
  conv_lhs => rw [whole, kept_append, kept_append, kept_blanks atStart, kept_blanks atEnd, after_start_blanks atStart]
  rw [List.nil_append, List.append_nil]
  cases rest : trim line with
  | nil => rfl
  | cons c line =>
    rw [rest] at solidStart solidEnd noFeed
    rw [kept_cons_solid (solidStart c rfl)]
    cases line with
    | nil => rfl
    | cons d more =>
      have inLine := kept_inside (fun member => noFeed (List.mem_cons_of_mem _ member)) (List.cons_ne_nil d more)
        (by simpa using solidEnd) []
      simpa [held, onKey, written] using inLine

/-- Character by character the reader keeps of later lines what it keeps of them line by line. -/
theorem kept_lines (s : Text) : start.kept s = (lines s).flatMap trim := by
  by_cases feed : '\n' ∈ s
  · obtain ⟨line, rest, rfl, noFeed⟩ := List.eq_append_cons_of_mem feed
    rw [kept_append, kept_feed, kept_start noFeed, kept_lines rest, lines_append_feed noFeed, List.flatMap_cons,
      trim_dropReturn]
  · by_cases empty : s = []
    · subst empty
      rfl
    · rw [kept_start feed, lines_of_no_feed feed empty]
      simp
termination_by s.length
decreasing_by
  subst_vars
  simp only [List.length_append, List.length_cons]
  omega

end Place

/-- The lines before a vector: the radix, and the key that the vector may follow on its line. Blanks may stand anywhere
in them. -/
structure Header where
  radix : Text
  key : Text
  radix_oneLine : '\n' ∉ radix
  radix_solid : solid radix = radixKey ++ "16;".toList
  key_oneLine : '\n' ∉ key
  key_solid : solid key = vectorKey

def Header.text (h : Header) (vector : Text) : Text := h.radix ++ '\n' :: (h.key ++ vector)

variable {line value : Text}

theorem solid_dropReturn (line : Text) : solid (dropReturn line) = solid line := by
  obtain ⟨blanks, areBlanks, whole⟩ := exists_dropReturn_blanks line
  conv_rhs => rw [whole, solid_append, solid_of_blanks areBlanks, List.append_nil]

/-- What a line of the header is that has more than a comment. -/
def HeaderLine.ofSolid (compact : Text) : HeaderLine :=
  match radixKey.isPrefixOf? compact with
  | some value => radix (value.reverse.dropWhile (· == ';')).reverse
  | none =>
    match vectorKey.isPrefixOf? compact with
    | some start => vector start
    | none => other

/-- A line of the header is known by what it has besides blanks. -/
theorem HeaderLine.read_of_solid {c : Char} {rest : Text} (whole : solid line = c :: rest) (noComment : c ≠ ';') :
    HeaderLine.read line = ofSolid (solid line) := by
  have trimmed := solid_trim line
  rw [whole] at trimmed
  unfold HeaderLine.read
  split
  · rename_i empty
    rw [empty] at trimmed
    cases trimmed
  · rename_i first
    rw [first, show ∀ s, solid (';' :: s) = ';' :: solid s from fun s => rfl, List.cons.injEq] at trimmed
    exact absurd trimmed.1.symm noComment
  · rw [← solid_trim line]
    rfl

/-- A line that has the radix of hexadecimal digits, which any number of semicolons may follow. -/
def IsRadix (line : Text) : Prop := ∃ n, solid line = radixKey ++ ("16".toList ++ List.replicate n ';')

/-- A line that has neither a radix nor the key of a vector, such as a comment. -/
def IsAside (line : Text) : Prop := ¬ radixKey <+: solid line ∧ ¬ vectorKey <+: solid line

instance (line : Text) : Decidable (IsAside line) := inferInstanceAs (Decidable (_ ∧ _))

theorem HeaderLine.read_radix (isRadix : IsRadix line) : HeaderLine.read line = .radix "16".toList := by
  obtain ⟨n, same⟩ := isRadix
  have start : radixKey.isPrefixOf? (radixKey ++ ("16".toList ++ List.replicate n ';')) =
      some ("16".toList ++ List.replicate n ';') := rfl
  have ends : (("16".toList ++ List.replicate n ';').reverse.dropWhile (· == ';')).reverse = "16".toList := by
    rw [List.reverse_append, List.reverse_replicate, List.dropWhile_append_of_pos (by simp)]
    rfl
  rw [HeaderLine.read_of_solid (c := 'm') same (by decide), same, ofSolid, start]
  simp only [ends]

/-- Nothing is read from such a line. -/
theorem HeaderLine.read_aside (isAside : IsAside line) :
    HeaderLine.read line = .blankOrComment ∨ HeaderLine.read line = .other := by
  have no : ∀ {key : Text}, ¬ key <+: solid line → key.isPrefixOf? (solid line) = none := by
    intro key noKey
    cases found : key.isPrefixOf? (solid line) with
    | none => rfl
    | some rest => exact absurd ⟨rest, List.append_eq_of_isPrefixOf?_eq_some found⟩ noKey
  cases trimmed : trim line with
  | nil => simp [HeaderLine.read, trimmed]
  | cons c rest =>
    have first : ¬ isBlank c := trim_head (s := line) (by rw [trimmed]; rfl)
    have whole : solid line = c :: solid rest := by
      rw [← solid_trim, trimmed]
      simp [solid, first]
    by_cases comment : c = ';'
    · simp [HeaderLine.read, trimmed, comment]
    · rw [HeaderLine.read_of_solid whole comment, ofSolid, no isAside.1, no isAside.2]
      exact Or.inr rfl

theorem HeaderLine.read_vector (same : solid line = vectorKey ++ value) : HeaderLine.read line = .vector value := by
  rw [HeaderLine.read_of_solid (c := 'm') same (by decide), same]
  have noRadix : radixKey.isPrefixOf? (vectorKey ++ value) = none := rfl
  have start : vectorKey.isPrefixOf? (vectorKey ++ value) = some value := rfl
  rw [ofSolid, noRadix, start]

/-- The first line of a vector is what the line of the key has besides the key, and the others come after it. -/
theorem findVector_key {key : Text} (oneLine : '\n' ∉ key) (isKey : solid key = vectorKey) (vector : Text) :
    ∃ start ls, findVector true (lines (key ++ vector)) = .ok (start, ls) ∧
      start ++ ls.flatMap trim = Place.key.kept vector := by
  have reads : ∀ line, HeaderLine.read (key ++ line) = .vector (solid line) ∧
      HeaderLine.read (dropReturn (key ++ line)) = .vector (solid line) := by
    intro line
    have same : solid (key ++ line) = vectorKey ++ solid line := by rw [solid_append, isKey]
    exact ⟨HeaderLine.read_vector same, HeaderLine.read_vector ((solid_dropReturn _).trans same)⟩
  by_cases feed : '\n' ∈ vector
  · obtain ⟨line, rest, rfl, noFeed⟩ := List.eq_append_cons_of_mem feed
    have together : '\n' ∉ key ++ line := by simp [oneLine, noFeed]
    refine ⟨solid line, lines rest, ?_, ?_⟩
    · rw [← List.append_assoc, lines_append_feed together]
      simp [findVector, (reads line).2]
    · rw [Place.kept_append, Place.kept_feed, Place.kept_key noFeed, Place.kept_lines]
  · have together : '\n' ∉ key ++ vector := by simp [oneLine, feed]
    have nonempty : key ++ vector ≠ [] := by
      intro empty
      rw [(List.append_eq_nil_iff.mp empty).1] at isKey
      cases isKey
    refine ⟨solid vector, [], ?_, ?_⟩
    · rw [lines_of_no_feed together nonempty]
      simp [findVector, (reads vector).1]
    · rw [Place.kept_key feed]
      simp

/-- The lines before a vector, with the key that it may follow on its line: the right radix at least once, and beside it
only lines that nothing is read from. -/
structure Preamble where
  before : List Text
  key : Text
  oneLine : ∀ line ∈ before, '\n' ∉ line
  known : ∀ line ∈ before, IsRadix line ∨ IsAside line
  radix : ∃ line ∈ before, IsRadix line
  key_oneLine : '\n' ∉ key
  key_solid : solid key = vectorKey

def Preamble.text (p : Preamble) (vector : Text) : Text := Text.ofLines p.before ++ (p.key ++ vector)

theorem IsRadix.not_isAside (isRadix : IsRadix line) : ¬ IsAside line := by
  obtain ⟨n, same⟩ := isRadix
  exact fun aside => aside.1 ⟨_, same.symm⟩

/-- Such lines are passed, and the radix is known after them. -/
theorem findVector_ofLines {before : List Text} (oneLine : ∀ line ∈ before, '\n' ∉ line)
    (known : ∀ line ∈ before, IsRadix line ∨ IsAside line) {seen : Bool}
    (radix : seen = true ∨ ∃ line ∈ before, IsRadix line) (rest : Text) :
    findVector seen (lines (Text.ofLines before ++ rest)) = findVector true (lines rest) := by
  induction before generalizing seen with
  | nil =>
    obtain rfl := radix.resolve_right (by simp)
    rfl
  | cons line before ih =>
    obtain ⟨first, others⟩ := List.forall_mem_cons.mp oneLine
    obtain ⟨kind, kinds⟩ := List.forall_mem_cons.mp known
    have whole : Text.ofLines (line :: before) ++ rest = line ++ '\n' :: (Text.ofLines before ++ rest) := by
      simp [Text.ofLines]
    rw [whole, lines_append_feed first]
    rcases kind with isRadix | isAside
    · have isRadixToo : IsRadix (dropReturn line) := by rwa [IsRadix, solid_dropReturn]
      have reads := HeaderLine.read_radix isRadixToo
      simp [findVector, reads, ih others kinds (Or.inl rfl)]
    · have later : seen = true ∨ ∃ line ∈ before, IsRadix line := by
        refine radix.imp_right ?_
        rintro ⟨found, member, isRadix⟩
        have other : found ≠ line := fun same => (same ▸ isRadix).not_isAside isAside
        exact ⟨found, (List.mem_cons.mp member).resolve_left other, isRadix⟩
      have isAsideToo : IsAside (dropReturn line) := by rwa [IsAside, solid_dropReturn]
      rcases HeaderLine.read_aside isAsideToo with reads | reads <;> simp [findVector, reads, ih others kinds later]

/-- The words of an image are those of the entries that are left of its vector when lines are joined. -/
theorem Preamble.parse_text (p : Preamble) {vector : Text} (noEnd : ';' ∉ vector) (tail : Text) :
    parse (p.text (vector ++ ';' :: tail)) = (entries (Place.key.body vector)).zipIdx.mapM readWord := by
  obtain ⟨start, ls, found, whole⟩ := findVector_key p.key_oneLine p.key_solid (vector ++ ';' :: tail)
  have noEndToo : ∀ c ∈ Place.key.body vector, ¬ (c == ';') := by
    rintro c member same
    exact noEnd (beq_iff_eq.mp same ▸ Place.key.body_subset vector member)
  have read : vectorText? start ls = some (Place.key.body vector) := by
    rw [vectorText?, whole, Place.kept_append, Place.kept_cons_solid (by decide), ← List.append_assoc]
    exact congrArg (Option.map Prod.fst) (cutAt_append noEndToo (beq_self_eq_true ';'))
  unfold parse Preamble.text
  rw [findVector_ofLines p.oneLine p.known (Or.inr p.radix), found]
  simp only [bind, Except.bind, read]

namespace Header

def toPreamble (h : Header) : Preamble where
  before := [h.radix]
  key := h.key
  oneLine := by simpa using h.radix_oneLine
  known := by simpa using Or.inl ⟨1, h.radix_solid⟩
  radix := ⟨h.radix, List.mem_singleton_self _, 1, h.radix_solid⟩
  key_oneLine := h.key_oneLine
  key_solid := h.key_solid

theorem parse_text (h : Header) {vector : Text} (noEnd : ';' ∉ vector) (tail : Text) :
    parse (h.text (vector ++ ';' :: tail)) = (entries (Place.key.body vector)).zipIdx.mapM readWord := by
  have same : h.text (vector ++ ';' :: tail) = h.toPreamble.text (vector ++ ';' :: tail) := by
    simp [text, Preamble.text, toPreamble, Text.ofLines]
  rw [same, h.toPreamble.parse_text noEnd]

end Header

end RiscAsm.Coe
