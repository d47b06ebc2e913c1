import RiscAsm.Operand
import RiscAsm.Proofs.BlankText
import RiscAsm.Proofs.PrintedNumerals

namespace RiscAsm

open Text

/-- Where no two elements have the same key, looking for a key finds the one that has it. -/
theorem Text.find?_key_eq_some_iff {α : Type} {l : List α} {key : α → Text} (distinct : (l.map key).Nodup)
    {name : Text} {a : α} : l.find? (fun a => key a == name) = some a ↔ a ∈ l ∧ key a = name := by
  constructor
  · intro found
    exact ⟨List.mem_of_find?_eq_some found, by simpa using List.find?_some found⟩
  · rintro ⟨member, rfl⟩
    cases found : l.find? (fun b => key b == key a) with
    | none => exact absurd (beq_self_eq_true (key a)) (List.find?_eq_none.mp found a member)
    | some other =>
      have same : key other = key a := by simpa using List.find?_some found
      rw [List.inj_on_of_nodup_map distinct (List.mem_of_find?_eq_some found) member same]

namespace Arch

theorem register?_registerName (arch : Arch) {number : Nat} (bound : number < 32) :
    arch.register? (arch.registerName number) = some number := by
  have all : ∀ n < 32, arch.register? (arch.registerName n) = some n := by cases arch <;> decide
  exact all number bound

theorem plain_of_mem_registerNames {arch : Arch} {entry : Text × Nat} (member : entry ∈ arch.registerNames) :
    Plain entry.1 := by
  have all : arch.registerNames.all (fun entry => !entry.1.isEmpty && entry.1.all isPlain) := by
    cases arch <;> decide +kernel
  simpa [Plain] using List.all_eq_true.mp all entry member

theorem plain_registerName (arch : Arch) (number : Nat) : Plain (arch.registerName number) := by
  unfold registerName
  cases found : arch.registerNames.find? (fun entry => entry.2 == number) with
  | none =>
    have named := Numeral.plain_decimal number
    cases arch with
    | mips => exact .cons (by decide) named
    | riscv => exact named
  | some entry =>
    have named := plain_of_mem_registerNames (List.mem_of_find?_eq_some found)
    cases arch with
    | mips => exact .cons (by decide) named
    | riscv => exact named

theorem plain_zeroRegister (arch : Arch) : Plain arch.zeroRegister := by
  cases arch <;> decide

theorem register?_zeroRegister (arch : Arch) : arch.register? arch.zeroRegister = some 0 := by
  cases arch <;> decide

end Arch

namespace Operand

/-- An operand as splitting leaves it. -/
def IsToken (token : Text) : Prop := token ≠ [] ∧ ',' ∉ token ∧ Trimmed token

theorem isToken_of_plain {token : Text} (plain : Plain token) : IsToken token :=
  ⟨plain.1, fun member => (isPlain_iff.mp (plain.2 _ member)).2.1 rfl, plain.trimmed⟩

theorem mem_of_mem_split {text token : Text} {c : Char} (member : token ∈ split text) (inToken : c ∈ token) :
    c ∈ text := by
  obtain ⟨piece, whole, rfl⟩ := List.mem_map.mp (List.mem_filter.mp member).1
  exact (mem_and_ne_of_mem_splitOn whole (trim_subset inToken)).1

theorem isToken_of_mem_split {text token : Text} (member : token ∈ split text) : IsToken token := by
  obtain ⟨inPieces, nonempty⟩ := List.mem_filter.mp member
  obtain ⟨piece, whole, rfl⟩ := List.mem_map.mp inPieces
  refine ⟨by simpa using nonempty, ?_, trimmed_trim piece⟩
  intro comma
  exact (mem_and_ne_of_mem_splitOn whole (trim_subset comma)).2 rfl

theorem isToken_of_split {text : Text} {tokens : List Text} (operands : split text = tokens) :
    ∀ token ∈ tokens, IsToken token := by
  rw [← operands]
  exact fun _ member => isToken_of_mem_split member

theorem split_cons_blank {c : Char} (blank : isBlank c) (text : Text) : split (c :: text) = split text := by
  have noComma : (c == ',') = false := by
    rw [beq_eq_false_iff_ne]
    rintro rfl
    exact absurd blank (by decide)
  unfold split
  rw [List.splitOn_cons_eq_if_modifyHead, noComma]
  cases text.splitOn ',' with
  | nil => rfl
  | cons first more => simp [trim_cons_blank blank]

theorem split_blanks_append {blanks : Text} (areBlanks : Blanks blanks) (text : Text) :
    split (blanks ++ text) = split text := by
  induction blanks with
  | nil => rfl
  | cons c blanks ih =>
    obtain ⟨blank, others⟩ := List.forall_mem_cons.mp areBlanks
    rw [List.cons_append, split_cons_blank blank, ih others]

theorem split_append_comma (before after : Text) : split (before ++ ',' :: after) = split before ++ split after := by
  simp only [split, List.splitOn_append_cons_self, List.map_append, List.filter_append]

theorem split_of_no_comma {text : Text} (noComma : ',' ∉ text) :
    split text = if (trim text).isEmpty then [] else [trim text] := by
  unfold split
  rw [List.splitOn_eq_singleton noComma]
  cases empty : (trim text).isEmpty <;> simp [empty]

/-- Blanks at the end belong to the last operand, which is trimmed. -/
theorem split_append_blanks {blanks : Text} (areBlanks : Blanks blanks) (text : Text) :
    split (text ++ blanks) = split text := by
  by_cases comma : ',' ∈ text
  · obtain ⟨before, after, rfl⟩ := List.append_of_mem comma
    rw [List.append_assoc, List.cons_append, split_append_comma, split_append_comma,
      split_append_blanks areBlanks after]
  · have noComma : ',' ∉ text ++ blanks := List.not_mem_append comma (not_mem_of_blanks areBlanks (by decide))
    rw [split_of_no_comma noComma, split_of_no_comma comma, trim_append_blanks areBlanks]
termination_by text.length

theorem split_trim (text : Text) : split (trim text) = split text := by
  obtain ⟨before, after, atStart, atEnd, whole⟩ := exists_blanks_trim text
  conv_rhs => rw [whole, split_append_blanks atEnd, split_blanks_append atStart]

theorem split_token {token : Text} (isToken : IsToken token) : split token = [token] := by
  obtain ⟨nonempty, noComma, trimmed⟩ := isToken
  rw [split_of_no_comma noComma, show trim token = token from trimmed, if_neg (by simpa using nonempty)]

theorem split_token_comma {token : Text} (isToken : IsToken token) (rest : Text) :
    split (token ++ ',' :: rest) = token :: split rest := by
  rw [split_append_comma, split_token isToken]
  rfl

/-- Operands written with a comma and a blank between them are split where they were joined. -/
theorem split_intercalate {tokens : List Text} (areTokens : ∀ token ∈ tokens, IsToken token) :
    split (", ".toList.intercalate tokens) = tokens := by
  induction tokens with
  | nil => rfl
  | cons token rest ih =>
    have first := areTokens token List.mem_cons_self
    have later := ih (fun other member => areTokens other (List.mem_cons_of_mem _ member))
    cases rest with
    | nil => simpa using split_token first
    | cons next others =>
      have joined : ", ".toList.intercalate (token :: next :: others) =
          token ++ ',' :: ' ' :: ", ".toList.intercalate (next :: others) := by
        simp [List.intercalate_cons_cons]
      rw [joined, split_token_comma first, split_cons_blank (by decide), later]

theorem paren_not_mem_signed (value : Int) : '(' ∉ Numeral.signed value := by
  have digits : ∀ n, '(' ∉ Numeral.decimal n := by
    intro n member
    obtain ⟨d, small, same⟩ := Numeral.mem_toDigits (by decide) member
    have all : ∀ d < 10, '(' ≠ Nat.digitChar d := by decide
    exact all d small same
  cases value with
  | ofNat n => exact digits n
  | negSucc n => simpa [Numeral.signed] using digits (n + 1)

theorem plain_memoryText (arch : Arch) (offset : Int) (base : Nat) :
    Plain (Numeral.signed offset ++ '(' :: arch.registerName base ++ [')']) := by
  have rest : ∀ c ∈ '(' :: arch.registerName base ++ [')'], isPlain c := by
    intro c member
    rcases List.mem_append.mp member with inName | atEnd
    · rcases List.mem_cons.mp inName with rfl | inName
      · decide
      · exact (arch.plain_registerName base).2 c inName
    · rw [List.mem_singleton.mp atEnd]; decide
  simpa using (Numeral.plain_signed offset).append rest

theorem memoryParts?_of_trimmed {offset base : Text} (trimmed : Trimmed (offset ++ '(' :: base ++ [')']))
    (absent : '(' ∉ offset) : memoryParts? (offset ++ '(' :: base ++ [')']) = some (offset, base) := by
  unfold memoryParts?
  rw [trimmed]
  have closed : (offset ++ '(' :: base ++ [')']).getLast? = some ')' := List.getLast?_concat
  simp only [closed, if_true, List.dropLast_concat]
  refine cutAt_append ?_ (by simp)
  intro c member
  simp only [beq_iff_eq]
  rintro rfl
  exact absent member

theorem memory_memoryText (arch : Arch) (offset : Int) {base : Nat} (lower : -0x7fffffffffffffff ≤ offset)
    (upper : offset ≤ 0x7fffffffffffffff) (bound : base < 32) :
    memory arch (Numeral.signed offset ++ '(' :: (arch.registerName base ++ [')'])) = .ok (offset, base) := by
  have parts := memoryParts?_of_trimmed (plain_memoryText arch offset base).trimmed (paren_not_mem_signed offset)
  simp only [List.append_assoc, List.cons_append] at parts
  have number := Numeral.literal?_signed offset lower upper
  have nonempty := (Numeral.plain_signed offset).1
  unfold memory
  rw [parts]
  simp [show trim (Numeral.signed offset) = Numeral.signed offset from (Numeral.plain_signed offset).trimmed,
    nonempty, immediate, number, register, arch.register?_registerName bound, bind, Except.bind, pure, Except.pure]

end Operand

end RiscAsm
