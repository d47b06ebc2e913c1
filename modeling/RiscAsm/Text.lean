namespace RiscAsm

/-- Sources, operands, messages and files are sequences of characters. -/
abbrev Text := List Char

namespace Text

/-- A blank is one of the 25 characters with the Unicode property White_Space. -/
def isBlank (c : Char) : Bool :=
  let n := c.toNat
  (0x09 ≤ n && n ≤ 0x0d) || n == 0x20 || n == 0x85 || n == 0xa0 || n == 0x1680 || (0x2000 ≤ n && n ≤ 0x200a) ||
    n == 0x2028 || n == 0x2029 || n == 0x202f || n == 0x205f || n == 0x3000

def trimStart (s : Text) : Text := s.dropWhile isBlank

def trimEnd (s : Text) : Text := (s.reverse.dropWhile isBlank).reverse

def trim (s : Text) : Text := trimEnd (trimStart s)

/-- The texts before and after the first character of a class, if it occurs. -/
def cutAt (p : Char → Bool) (s : Text) : Option (Text × Text) :=
  match s.dropWhile (fun c => !p c) with
  | [] => none
  | _ :: rest => some (s.takeWhile (fun c => !p c), rest)

/-- A carriage return before a line feed belongs to the line's ending. -/
def dropReturn (line : Text) : Text := if line.getLast? = some '\r' then line.dropLast else line

/-- Lines end at line feeds; what follows the last feed is a line unless it is empty, and keeps
a carriage return at its end. -/
def lines (s : Text) : List Text :=
  let pieces := s.splitOn '\n'
  pieces.dropLast.map dropReturn ++ (pieces.getLast?.filter (fun last => !last.isEmpty)).toList

def ofLines (ls : List Text) : Text := ls.flatMap (· ++ ['\n'])

def quoted (s : Text) : Text := '`' :: s ++ ['`']

theorem cutAt_eq_some {p : Char → Bool} {s before after : Text} (h : cutAt p s = some (before, after)) :
    ∃ c, p c ∧ (∀ d ∈ before, ¬ p d) ∧ s = before ++ c :: after := by
  unfold cutAt at h
  split at h
  · cases h
  · rename_i c rest found
    cases h
    refine ⟨c, ?_, ?_, ?_⟩
    · have head := List.head_dropWhile_not (fun c => !p c) (w := by rw [found]; simp)
      simpa [found] using head
    · intro d inside
      have := List.all_takeWhile (p := fun c => !p c) (l := s)
      simpa using List.all_eq_true.mp this d inside
    · rw [← found, List.takeWhile_append_dropWhile]

theorem cutAt_eq_none {p : Char → Bool} {s : Text} : cutAt p s = none ↔ ∀ c ∈ s, ¬ p c := by
  induction s with
  | nil => simp [cutAt]
  | cons c s ih =>
    by_cases h : p c
    · simp [cutAt, List.dropWhile, h]
    · simp only [cutAt] at ih
      simp only [cutAt, List.dropWhile, h, Bool.not_false, List.forall_mem_cons, ← ih]
      split <;> simp_all

end Text

end RiscAsm
