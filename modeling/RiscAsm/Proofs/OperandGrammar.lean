import RiscAsm.Proofs.LiteralGrammar
import RiscAsm.Proofs.OperandForms
import RiscAsm.RiscV.Encode

namespace RiscAsm

open Text

namespace Numeral

variable {c : Char} {s : Text} {limit base value n : Nat}

/-- Digits read into a place that holds numbers up to a limit. The reading ends without a result at the first digit
after which the number does not fit. -/
def digitsWithin? (limit base : Nat) : Text → Option Nat
  | [] => none
  | c :: s => (c :: s).foldlM (fun value c => (step? base value c).filter (· ≤ limit)) 0

theorem le_of_step? (positive : 0 < base) (step : step? base value c = some n) : value ≤ n := by
  obtain ⟨d, _, _, rfl⟩ := step?_eq_some_iff.mp step
  exact (Nat.le_mul_of_pos_left value positive).trans (Nat.le_add_left _ d)

/-- More digits make a number no smaller, so one that does not fit once does not fit in the end either. -/
theorem le_of_foldlM (positive : 0 < base) (reads : s.foldlM (step? base) value = some n) : value ≤ n := by
  induction s generalizing value with
  | nil => exact (Option.some.inj reads).le
  | cons c s ih =>
    rw [List.foldlM_cons] at reads
    obtain ⟨next, step, rest⟩ := Option.bind_eq_some_iff.mp reads
    exact (le_of_step? positive step).trans (ih rest)

theorem foldlM_within (positive : 0 < base) (fits : value ≤ limit) :
    s.foldlM (fun value c => (step? base value c).filter (· ≤ limit)) value =
      (s.foldlM (step? base) value).filter (· ≤ limit) := by
  induction s generalizing value with
  | nil => simp [Option.filter, fits]
  | cons c s ih =>
    rw [List.foldlM_cons, List.foldlM_cons]
    cases step : step? base value c with
    | none => rfl
    | some next =>
      by_cases small : next ≤ limit
      · simpa [Option.filter, small] using ih small
      · have large : (s.foldlM (step? base) next).filter (· ≤ limit) = none := by
          rw [Option.filter_eq_none_iff]
          intro n reads fitsToo
          exact small ((le_of_foldlM positive reads).trans (by simpa using fitsToo))
        simpa [Option.filter, small] using large.symm

/-- A limited place reads the numbers that fit into it and no others, however many zeros stand in front. -/
theorem digitsWithin?_eq (positive : 0 < base) : digitsWithin? limit base s = (digits? base s).filter (· ≤ limit) := by
  cases s with
  | nil => rfl
  | cons c s => exact foldlM_within positive (Nat.zero_le limit)

/-- So a place that holds more than all register numbers reads each of them. -/
theorem filter_digitsWithin? (positive : 0 < base) {bound : Nat} (enough : bound ≤ limit + 1) :
    (digitsWithin? limit base s).filter (· < bound) = (digits? base s).filter (· < bound) := by
  rw [digitsWithin?_eq positive, Option.filter_filter]
  congr 1
  funext n
  rw [← Bool.decide_and, decide_eq_decide]
  omega

end Numeral

namespace Arch

open Numeral (SpellsIn)

/-- A register without its dollar sign: a name of the table, or a number below 32 in decimal digits, with any number of
zeros in front. In RISC-V an `x` may stand before the digits. -/
inductive NamesRegister : Arch → Text → Nat → Prop
  | name {arch : Arch} {name : Text} {n : Nat} (listed : (name, n) ∈ arch.registerNames) : NamesRegister arch name n
  | number {arch : Arch} {digits : Text} {n : Nat} (spells : SpellsIn 10 digits n) (bound : n < 32) :
      NamesRegister arch digits n
  | markedNumber {digits : Text} {n : Nat} (spells : SpellsIn 10 digits n) (bound : n < 32) :
      NamesRegister riscv ('x' :: digits) n

/-- A register as it is written. In MIPS one dollar sign may stand before it. -/
inductive DenotesRegister : Arch → Text → Nat → Prop
  | bare {arch : Arch} {name : Text} {n : Nat} (names : NamesRegister arch name n) : DenotesRegister arch name n
  | sigil {name : Text} {n : Nat} (names : NamesRegister mips name n) : DenotesRegister mips ('$' :: name) n

variable {arch : Arch} {token : Text} {n : Nat}

theorem nodup_registerNames (arch : Arch) : (arch.registerNames.map (·.1)).Nodup := by
  cases arch <;> decide +kernel

/-- No name of the table is a number, with or without its mark. -/
theorem digits?_of_mem_registerNames {entry : Text × Nat} (listed : entry ∈ arch.registerNames) :
    Numeral.digits? 10 (arch.dropNumberMark entry.1) = none := by
  have all : ∀ entry ∈ arch.registerNames, Numeral.digits? 10 (arch.dropNumberMark entry.1) = none := by
    cases arch <;> decide +kernel
  exact all entry listed

theorem NamesRegister.no_sigil (names : NamesRegister arch token n) : '$' ∉ token := by
  have ofDigits {digits : Text} (spells : SpellsIn 10 digits n) : '$' ∉ digits :=
    Numeral.not_mem_of_digits? (by decide) (Numeral.digits?_eq_some_iff.mpr spells)
  cases names with
  | name listed =>
    have all : ∀ entry ∈ arch.registerNames, '$' ∉ entry.1 := by cases arch <;> decide
    exact all _ listed
  | number spells => exact ofDigits spells
  | markedNumber spells => exact List.not_mem_cons_of_ne_of_not_mem (by decide) (ofDigits spells)

theorem namesRegister_iff : NamesRegister arch token n ↔
    (token, n) ∈ arch.registerNames ∨ SpellsIn 10 (arch.dropNumberMark token) n ∧ n < 32 := by
  constructor
  · intro names
    cases names with
    | name listed => exact .inl listed
    | number spells bound =>
      refine .inr ⟨?_, bound⟩
      unfold dropNumberMark
      split
      · exact absurd rfl (spells.no_mark 'x' List.mem_cons_self).1
      · exact spells
    | markedNumber spells bound => exact .inr ⟨spells, bound⟩
  · rintro (listed | ⟨spells, bound⟩)
    · exact .name listed
    · unfold dropNumberMark at spells
      split at spells
      · exact .markedNumber spells bound
      · exact .number spells bound

theorem denotesRegister_iff : DenotesRegister arch token n ↔ NamesRegister arch (arch.dropSigil token) n := by
  constructor
  · intro denotes
    cases denotes with
    | bare names =>
      have noSigil := names.no_sigil
      unfold dropSigil
      split
      · exact absurd List.mem_cons_self noSigil
      · exact names
    | sigil names => exact names
  · intro names
    unfold dropSigil at names
    split at names
    · exact .sigil names
    · exact .bare names

/-- A register is read exactly if it is one, and with the number that it denotes. -/
theorem register?_eq_some_iff : arch.register? token = some n ↔ DenotesRegister arch (trim token) n := by
  rw [denotesRegister_iff, namesRegister_iff]
  unfold register?
  dsimp only
  generalize arch.dropSigil (trim token) = name
  have found (entry : Text × Nat) : arch.registerNames.find? (fun entry => entry.1 == name) = some entry ↔
      entry ∈ arch.registerNames ∧ entry.1 = name := find?_key_eq_some_iff (nodup_registerNames arch)
  cases lookup : arch.registerNames.find? (fun entry => entry.1 == name) with
  | some entry =>
    -- A listed name is no number, so the table alone decides.
    obtain ⟨listed, rfl⟩ := (found entry).mp lookup
    have noNumber : ¬ SpellsIn 10 (arch.dropNumberMark entry.1) n := by
      rw [← Numeral.digits?_eq_some_iff, digits?_of_mem_registerNames listed]
      nofun
    have same : (entry.1, n) ∈ arch.registerNames ↔ entry.2 = n := by
      constructor
      · intro listedToo
        have equal := Option.some.inj (lookup.symm.trans ((found (entry.1, n)).mpr ⟨listedToo, rfl⟩))
        exact congrArg Prod.snd equal
      · rintro rfl
        exact listed
    simp only [Option.some.injEq, same, noNumber, false_and, or_false]
  | none =>
    have unlisted : (name, n) ∉ arch.registerNames := by
      intro listed
      cases lookup.symm.trans ((found (name, n)).mpr ⟨listed, rfl⟩)
    simp only [unlisted, false_or, Option.filter_eq_some_iff, Numeral.digits?_eq_some_iff, decide_eq_true_eq]

end Arch

namespace Operand

/-- A memory operand as it is written: a base register in parentheses, behind an offset or nothing. -/
inductive DenotesPlace (arch : Arch) : Text → Int → Nat → Prop
  | direct {blanks inside : Text} {base : Nat} (areBlanks : Blanks blanks)
      (register : arch.DenotesRegister (trim inside) base) : DenotesPlace arch (blanks ++ '(' :: inside ++ [')']) 0 base
  | displaced {before inside : Text} {offset : Int} {base : Nat} (literal : Numeral.Denotes (trim before) offset)
      (register : arch.DenotesRegister (trim inside) base) :
      DenotesPlace arch (before ++ '(' :: inside ++ [')']) offset base

variable {arch : Arch} {token : Text} {offset : Int} {base : Nat}

/-- The first parenthesis is the one before the base, as neither blanks nor literals have any. -/
theorem places_iff : Places arch token offset base ↔ DenotesPlace arch (trim token) offset base := by
  unfold Places
  generalize trim token = written
  constructor
  · rintro ⟨before, inside, rfl, _, ⟨blanks, rfl⟩ | reads, ofInside⟩
    · exact .direct blanks (Arch.register?_eq_some_iff.mp ofInside)
    · exact .displaced (Numeral.literal?_eq_some_iff.mp reads) (Arch.register?_eq_some_iff.mp ofInside)
  · intro denotes
    cases denotes with
    | direct blanks register =>
      exact ⟨_, _, rfl, not_mem_of_blanks blanks (by decide), .inl ⟨blanks, rfl⟩,
        Arch.register?_eq_some_iff.mpr register⟩
    | displaced literal register =>
      have reads := Numeral.literal?_eq_some_iff.mpr literal
      exact ⟨_, _, rfl, IsMark.paren.not_mem_of_literal? reads, .inr reads, Arch.register?_eq_some_iff.mpr register⟩

/-- A memory operand has one pair of parentheses. -/
theorem Places.parentheses (placed : Places arch token offset base) : token.count '(' = 1 ∧ token.count ')' = 1 :=
  ⟨placed.count_mark .paren, placed.count_mark .closing⟩

/-- Registers and literals have no parentheses, so none of them is a memory operand. -/
theorem Places.apart (placed : Places arch token offset base) :
    arch.register? token = none ∧ Numeral.literal? token = none := by
  have member : '(' ∈ token := List.count_pos_iff.mp (by rw [placed.parentheses.1]; decide)
  constructor
  · exact Option.eq_none_iff_forall_ne_some.mpr fun n reads => IsMark.paren.not_mem_of_register? reads member
  · exact Option.eq_none_iff_forall_ne_some.mpr fun value reads => IsMark.paren.not_mem_of_literal? reads member

end Operand

namespace RiscV

open Operand

variable {rd token : Text} {offset : Int} {base n : Nat}

/-- A register jump through a register has no offset. -/
theorem jumpOperands_of_register (read : register .riscv token = .ok n) :
    jumpOperands [rd, token] = (register .riscv rd).map fun link => (link, n, 0) := by
  have noParen := isMemory_of_register? (register_eq_ok.mp read)
  simp only [jumpOperands, noParen, Bool.false_eq_true, if_false, read]
  cases register .riscv rd <;> rfl

theorem jumpOperands_of_memory (read : memory .riscv token = .ok (offset, base)) :
    jumpOperands [rd, token] = (register .riscv rd).map fun link => (link, base, offset) := by
  have paren := isMemory_of_places (memory_eq_ok_iff.mp read)
  simp only [jumpOperands, paren, if_true, read]
  cases register .riscv rd <;> rfl

end RiscV

namespace Operand

/-- Registers and memory operands are read exactly. A register is a name of the table or a decimal number below 32,
after at most one mark of its instruction set; accumulating the number in eight bits would read the same. A memory
operand is an offset, which may be left out, before a register in the only two parentheses. So no memory operand is a
register or a literal, and the search for a parenthesis takes a RISC-V register jump through either of them for what
it is. -/
theorem reads_operands_exactly :
    (∀ (arch : Arch) (token : Text) (n : Nat), arch.register? token = some n ↔ arch.DenotesRegister (trim token) n) ∧
    (∀ digits : Text, (Numeral.digitsWithin? 255 10 digits).filter (· < 32) =
      (Numeral.digits? 10 digits).filter (· < 32)) ∧
    (∀ (arch : Arch) (token : Text) (offset : Int) (base : Nat),
      memory arch token = .ok (offset, base) ↔ Places arch token offset base) ∧
    (∀ (arch : Arch) (token : Text) (offset : Int) (base : Nat),
      Places arch token offset base ↔ DenotesPlace arch (trim token) offset base) ∧
    (∀ (arch : Arch) (token : Text) (offset : Int) (base : Nat), memory arch token = .ok (offset, base) →
      token.count '(' = 1 ∧ token.count ')' = 1 ∧ (∀ n, register arch token ≠ .ok n) ∧
        ∀ value, immediate token ≠ .ok value) ∧
    (∀ (rd token : Text) (n : Nat), register .riscv token = .ok n → isMemory token = false ∧
      RiscV.jumpOperands [rd, token] = (register .riscv rd).map fun link => (link, n, 0)) ∧
    ∀ (rd token : Text) (offset : Int) (base : Nat), memory .riscv token = .ok (offset, base) → isMemory token = true ∧
      RiscV.jumpOperands [rd, token] = (register .riscv rd).map fun link => (link, base, offset) := by
  refine ⟨fun arch token n => Arch.register?_eq_some_iff, fun digits => ?_,
    fun arch token offset base => memory_eq_ok_iff, fun arch token offset base => places_iff,
    fun arch token offset base read => ?_, fun rd token n read => ?_, fun rd token offset base read => ?_⟩
  · exact Numeral.filter_digitsWithin? (by decide) (by decide)
  · have placed := memory_eq_ok_iff.mp read
    obtain ⟨noRegister, noLiteral⟩ := placed.apart
    refine ⟨placed.parentheses.1, placed.parentheses.2, fun n ofRegister => ?_, fun value ofLiteral => ?_⟩
    · cases noRegister.symm.trans (register_eq_ok.mp ofRegister)
    · cases noLiteral.symm.trans (immediate_eq_ok.mp ofLiteral)
  · exact ⟨isMemory_of_register? (register_eq_ok.mp read), RiscV.jumpOperands_of_register read⟩
  · exact ⟨isMemory_of_places (memory_eq_ok_iff.mp read), RiscV.jumpOperands_of_memory read⟩

/-- Blanks and zeros in front do not count; 256 is not taken for zero, and no second parenthesis is taken. -/
theorem reads_operands_exactly_padded :
    let padded := " -0x8 ( x007\t) ".toList
    let link := "ra".toList
    Arch.mips.DenotesRegister (trim "\t$0031 ".toList) 31 ∧
    (∀ n, ¬ Arch.riscv.DenotesRegister (trim "x256".toList) n) ∧
    (∀ offset base, ¬ Places .riscv "8((sp))".toList offset base) ∧
    memory .riscv padded = .ok (-8, 7) ∧ (∀ n, register .riscv padded ≠ .ok n) ∧
    RiscV.jumpOperands [link, padded] = .ok (1, 7, -8) ∧
    register .riscv "x007".toList = .ok 7 ∧ RiscV.jumpOperands [link, "x007".toList] = .ok (1, 7, 0) := by
  intro padded link
  obtain ⟨registers, _, places, _, apart, ofRegister, ofMemory⟩ := reads_operands_exactly
  have read : memory .riscv padded = .ok (-8, 7) := by decide +kernel
  have plain : register .riscv "x007".toList = .ok 7 := by decide +kernel
  refine ⟨(registers _ _ _).mp (by decide +kernel), fun n denotes => ?_, fun offset base placed => ?_, read,
    (apart _ _ _ _ read).2.2.1, (ofMemory link _ _ _ read).2.trans (by decide +kernel), plain,
    (ofRegister link _ _ plain).2.trans (by decide +kernel)⟩
  · have large : Arch.riscv.register? "x256".toList = none := by decide +kernel
    cases large.symm.trans ((registers _ _ _).mpr denotes)
  · have nested : memory .riscv "8((sp))".toList = .error (.invalidOperand (.badRegister "(sp)".toList)) := by
      decide +kernel
    cases nested.symm.trans ((places _ _ _ _).mpr placed)

end Operand

end RiscAsm
