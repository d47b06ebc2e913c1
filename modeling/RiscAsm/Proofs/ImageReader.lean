import RiscAsm.Coe
import RiscAsm.Proofs.TrimmedText

namespace RiscAsm

theorem Text.cutAt_append_right {p : Char → Bool} {s before after : Text} (found : cutAt p s = some (before, after))
    (more : Text) : cutAt p (s ++ more) = some (before, after ++ more) := by
  obtain ⟨c, cut, absent, rfl⟩ := cutAt_eq_some found
  rw [List.append_assoc, List.cons_append, cutAt_append absent cut]

namespace Coe

open Text

/-- Where a reader stands that takes an image line by line: in the header, which may have told the radix, or in the
vector, of which it keeps the text so far. -/
inductive Reader where
  | header (radixSeen : Bool)
  | vector (text : Text)

namespace Reader

/-- The text of the vector, once its semicolon is read. -/
def complete? : Reader → Option Text
  | header _ => none
  | vector text => (cutAt (· == ';') text).map (·.1)

/-- What is missing where the lines end. -/
def missing : Reader → CoeError
  | header true => .missingVector
  | header false => .missingRadix
  | vector _ => .unterminated

def next : Reader → Text → Except CoeError Reader
  | header radixSeen, line =>
    match HeaderLine.read line with
    | .radix value => if value = "16".toList then .ok (header true) else .error (.unsupportedRadix value)
    | .vector start => if radixSeen then .ok (vector start) else .error .missingRadix
    | .blankOrComment | .other => .ok (header radixSeen)
  | vector text, line => .ok (vector (text ++ trim line))

/-- Takes lines until the vector is complete, and leaves the others unread. -/
def run (r : Reader) (lines : List Text) : Except CoeError (Text × List Text) :=
  match r.complete? with
  | some text => .ok (text, lines)
  | none =>
    match lines with
    | [] => .error r.missing
    | line :: rest => do
      let after ← r.next line
      after.run rest

theorem run_of_complete {r : Reader} {text : Text} (complete : r.complete? = some text) (lines : List Text) :
    r.run lines = .ok (text, lines) := by
  unfold run
  rw [complete]

theorem run_nil {r : Reader} (unfinished : r.complete? = none) : r.run [] = .error r.missing := by
  unfold run
  rw [unfinished]

theorem run_cons {r : Reader} (unfinished : r.complete? = none) (line : Text) (rest : List Text) :
    r.run (line :: rest) = (r.next line >>= fun after => after.run rest) := by
  conv_lhs => unfold run
  rw [unfinished]

/-- Stopping at the semicolon gives the vector that all lines together have. -/
theorem map_run_vector (start : Text) (rest : List Text) :
    (run (vector start) rest).map Prod.fst = (vectorText? start rest).elim (.error .unterminated) .ok := by
  induction rest generalizing start with
  | nil =>
    cases found : cutAt (· == ';') start with
    | none =>
      have unfinished : (vector start).complete? = none := by simp [complete?, found]
      simp [vectorText?, found, run_nil unfinished, missing, Except.map]
    | some parts =>
      have finished : (vector start).complete? = some parts.1 := by simp [complete?, found]
      simp [vectorText?, found, run_of_complete finished, Except.map]
  | cons line rest ih =>
    cases found : cutAt (· == ';') start with
    | none =>
      have unfinished : (vector start).complete? = none := by simp [complete?, found]
      have joined : vectorText? start (line :: rest) = vectorText? (start ++ trim line) rest := by
        simp [vectorText?, List.append_assoc]
      rw [run_cons unfinished, joined]
      exact ih (start ++ trim line)
    | some parts =>
      have finished : (vector start).complete? = some parts.1 := by simp [complete?, found]
      simp [vectorText?, cutAt_append_right found, run_of_complete finished, Except.map]

/-- The lines of the header lead to the start of the vector. -/
theorem run_header (radixSeen : Bool) (lines : List Text) :
    run (header radixSeen) lines =
      (findVector radixSeen lines >>= fun found => run (vector found.1) found.2) := by
  induction lines generalizing radixSeen with
  | nil => cases radixSeen <;> rfl
  | cons line rest ih =>
    rw [run_cons (r := header radixSeen) rfl]
    cases kind : HeaderLine.read line with
    | radix value =>
      simp only [next, findVector, kind]
      split
      · exact ih true
      · rfl
    | vector start =>
      simp only [next, findVector, kind]
      cases radixSeen <;> rfl
    | blankOrComment | other =>
      simp only [next, findVector, kind]
      exact ih radixSeen

end Reader

/-- The words of an image whose lines are read one after another, and the lines after its vector. -/
def readLines (lines : List Text) : Except CoeError (List Word × List Text) := do
  let (text, unread) ← Reader.run (.header false) lines
  let words ← (entries text).zipIdx.mapM readWord
  return (words, unread)

/-- An image is read in one pass over its lines, which stops after the line that ends the vector. -/
theorem parse_eq_readLines (text : Text) : parse text = (readLines (lines text)).map Prod.fst := by
  unfold parse readLines
  rw [Reader.run_header]
  cases findVector false (lines text) with
  | error fault => rfl
  | ok found =>
    have vector := Reader.map_run_vector found.1 found.2
    simp only [bind, Except.bind]
    cases read : vectorText? found.1 found.2 with
    | none =>
      cases ran : Reader.run (.vector found.1) found.2 with
      | error fault => rw [ran, read] at vector; cases vector; rfl
      | ok result => rw [ran, read] at vector; cases vector
    | some text =>
      cases ran : Reader.run (.vector found.1) found.2 with
      | error fault => rw [ran, read] at vector; cases vector
      | ok result =>
        rw [ran, read] at vector
        cases vector
        dsimp only
        cases (entries result.1).zipIdx.mapM readWord <;> rfl

namespace Reader

variable {text : Text}

theorem complete?_of_semicolon (noEnd : ';' ∉ text) (rest : Text) :
    (vector (text ++ ';' :: rest)).complete? = some text := by
  have absent : ∀ c ∈ text, ¬ (c == ';') := by
    rintro c member same
    exact noEnd (beq_iff_eq.mp same ▸ member)
  simp [complete?, cutAt_append absent (beq_self_eq_true ';')]

theorem complete?_of_no_semicolon (noEnd : ';' ∉ text) : (vector text).complete? = none := by
  have absent : ∀ c ∈ text, ¬ (c == ';') := by
    rintro c member same
    exact noEnd (beq_iff_eq.mp same ▸ member)
  simp [complete?, cutAt_eq_none.mpr absent]

theorem run_vector_cons {line : Text} (noFeed : '\n' ∉ line) (noEnd : ';' ∉ text) (rest : Text) :
    run (vector text) (lines (line ++ '\n' :: rest)) = run (vector (text ++ trim (dropReturn line))) (lines rest) := by
  rw [lines_append_feed noFeed, run_cons (complete?_of_no_semicolon noEnd)]
  rfl

end Reader

end Coe

end RiscAsm
