import RiscAsm.Expansion
import RiscAsm.Proofs.EncodedEffects

namespace RiscAsm

open Text Operand
open Word (bits)

/-- A word is its upper half, shifted into place, with its lower half. -/
theorem Word.shiftLeft_or_bits (word : Word) :
    BitVec.ofNat 32 (bits word 31 16) <<< 16 ||| BitVec.ofNat 32 (bits word 15 0) = word := by
  have high : BitVec.ofNat 32 (bits word 31 16) = (word.extractLsb' 16 16).setWidth 32 := BitVec.ofNat_toNat 32 _
  have low : BitVec.ofNat 32 (bits word 15 0) = (word.extractLsb' 0 16).setWidth 32 := BitVec.ofNat_toNat 32 _
  rw [high, low]
  ext i inside
  simp only [BitVec.getElem_or, BitVec.getElem_shiftLeft, BitVec.getElem_setWidth, BitVec.getLsbD_extractLsb']
  grind

/-- Twelve bits that are added as a signed number make up a word with twenty bits that are rounded accordingly. -/
theorem Word.shiftLeft_add_signExtend (value : Int) :
    BitVec.ofNat 32 (bits (BitVec.ofInt 32 (value - Word.signExtend (BitVec.ofInt 32 value) 12)) 31 12) <<< 12 +
      BitVec.ofInt 32 (Word.signExtend (BitVec.ofInt 32 value) 12) = BitVec.ofInt 32 value := by
  have lower := BitVec.toInt_eq_toNat_cond ((BitVec.ofInt 32 value).setWidth 12)
  rw [BitVec.toNat_setWidth, BitVec.toNat_ofInt] at lower
  unfold Word.signExtend
  generalize ((BitVec.ofInt 32 value).setWidth 12).toInt = low at lower ⊢
  -- The lower bits have the value's remainder, so the rest is a multiple of 2 ^ 12 and loses nothing.
  rw [BitVec.toNat_eq, BitVec.toNat_add, BitVec.toNat_shiftLeft, Nat.shiftLeft_eq, BitVec.toNat_ofNat, Word.bits_eq,
    BitVec.toNat_ofInt, BitVec.toNat_ofInt, BitVec.toNat_ofInt]
  split at lower
  · omega
  · omega

namespace Pseudo

open Statement

variable {arch : Arch} {mnemonic text : Text} {pseudo : Pseudo}

theorem runs_of_rewrite {statements : List Statement} {effects : List (Registers → Registers)}
    (known : ofMnemonic? arch mnemonic = some pseudo) (rewritten : pseudo.rewrite arch text = .ok statements)
    (each : List.Forall₂ (HasEffect arch) statements effects) :
    Runs arch ⟨mnemonic, text⟩ fun before after => after = effects.foldl (fun s effect => effect s) before := by
  intro line
  obtain ⟨instrs, words, mapped, encoded, ran⟩ := run_of_hasEffect each line (some pseudo)
  exact ⟨instrs, words, expand_of_rewrite known rewritten mapped, encoded, fun before => ⟨_, ran before, rfl⟩⟩

theorem isToken_zeroRegister (arch : Arch) : IsToken arch.zeroRegister := by
  refine isToken_of_plain ?_
  cases arch <;> exact ⟨by decide, List.all_eq_true.mp (by decide)⟩

theorem isToken_constants : IsToken "0".toList ∧ IsToken "-1".toList :=
  ⟨isToken_of_plain ⟨by decide, List.all_eq_true.mp (by decide)⟩,
    isToken_of_plain ⟨by decide, List.all_eq_true.mp (by decide)⟩⟩

theorem hasEffect_copy {rd rs : Text} {d s : Nat} (tokens : IsToken rd ∧ IsToken rs)
    (ofRd : arch.register? rd = some d) (ofRs : arch.register? rs = some s) :
    (statement "addi" [rd, rs, "0".toList]).HasEffect arch fun r => r.write d (r.read s) := by
  have all : ∀ op ∈ [rd, rs, "0".toList], IsToken op := by
    simp only [List.forall_mem_cons]
    exact ⟨tokens.1, tokens.2, isToken_constants.1, by simp⟩
  have literal : Numeral.literal? "0".toList = some 0 := by decide
  cases arch with
  | mips => simpa using Mips.hasEffect_addi all ofRd ofRs literal (by decide)
  | riscv => simpa using RiscV.hasEffect_addi all ofRd ofRs literal (by decide)

/-- Combining a register with the zero register or with a word of ones negates its bits. -/
theorem rewrite_not {rd rs : Text} {d s : Nat} (tokens : IsToken rd ∧ IsToken rs) (operands : split text = [rd, rs])
    (ofRd : arch.register? rd = some d) (ofRs : arch.register? rs = some s) :
    ∃ direct, rewrite arch .not text = .ok [direct] ∧ direct.HasEffect arch fun r => r.write d (~~~(r.read s)) := by
  cases arch with
  | mips =>
    have all : ∀ op ∈ [rd, rs, Arch.mips.zeroRegister], IsToken op := by
      simp [tokens, isToken_zeroRegister]
    have effect := Mips.hasEffect_nor all ofRd ofRs (Arch.register?_zeroRegister .mips)
    simp only [Registers.zero, BitVec.ofNat_eq_ofNat, BitVec.or_zero] at effect
    exact ⟨statement "nor" [rd, rs, Arch.mips.zeroRegister], by simp [rewrite, operands, two], effect⟩
  | riscv =>
    have all : ∀ op ∈ [rd, rs, "-1".toList], IsToken op := by
      simp only [List.forall_mem_cons]
      exact ⟨tokens.1, tokens.2, isToken_constants.2, by simp⟩
    have literal : Numeral.literal? "-1".toList = some (-1) := by decide
    have effect := RiscV.hasEffect_xori all ofRd ofRs literal (by decide)
    have ones : BitVec.ofInt 32 (-1) = BitVec.allOnes 32 := by decide
    simp only [ones, BitVec.xor_allOnes] at effect
    exact ⟨statement "xori" [rd, rs, "-1".toList], by simp [rewrite, operands, two], effect⟩

theorem hasEffect_negate {rd rs : Text} {d s : Nat} (tokens : IsToken rd ∧ IsToken rs)
    (ofRd : arch.register? rd = some d) (ofRs : arch.register? rs = some s) :
    (statement "sub" [rd, arch.zeroRegister, rs]).HasEffect arch fun r => r.write d (0 - r.read s) := by
  have all : ∀ op ∈ [rd, arch.zeroRegister, rs], IsToken op := by
    simp [tokens, isToken_zeroRegister]
  have zero := arch.register?_zeroRegister
  cases arch with
  | mips => simpa only [Registers.zero] using Mips.hasEffect_sub all ofRd zero ofRs
  | riscv => simpa only [Registers.zero] using RiscV.hasEffect_sub all ofRd zero ofRs

theorem loadMips_runs {rd : Text} {d : Nat} (isToken : IsToken rd) (ofRd : Arch.mips.register? rd = some d)
    (value : Int) :
    ∃ effects, List.Forall₂ (HasEffect .mips) (loadMips rd value) effects ∧
      ∀ before, Registers.SetsOnly d (BitVec.ofInt 32 value) before
        (effects.foldl (fun s effect => effect s) before) := by
  have halves := Word.shiftLeft_or_bits (BitVec.ofInt 32 value)
  have high := Word.bits_eq (BitVec.ofInt 32 value) 31 16
  have low := Word.bits_eq (BitVec.ofInt 32 value) 15 0
  have hexToken : ∀ n, IsToken (Numeral.hex n) := fun n => isToken_of_plain (Numeral.plain_hex n)
  have upper := Mips.hasEffect_lui (by simp [isToken, hexToken]) ofRd
    (Numeral.literal?_hex (n := bits (BitVec.ofInt 32 value) 31 16) (by omega)) (by omega)
  have lower := Mips.hasEffect_ori (by simp [isToken, hexToken]) ofRd ofRd
    (Numeral.literal?_hex (n := bits (BitVec.ofInt 32 value) 15 0) (by omega)) (by omega)
  unfold loadMips
  dsimp only
  split
  -- The constant has 16 bits and is added to zero.
  · rename_i small
    have range := And.intro (BitVec.le_toInt ((BitVec.ofInt 32 value).setWidth 16))
      (BitVec.toInt_lt (x := (BitVec.ofInt 32 value).setWidth 16))
    rw [show ((BitVec.ofInt 32 value).setWidth 16).toInt = value from small] at range
    have literal := Numeral.literal?_signed value (by omega) (by omega)
    have direct := Mips.hasEffect_addi
      (by simp [isToken, isToken_zeroRegister, isToken_of_plain (Numeral.plain_signed value)]) ofRd
      (Arch.register?_zeroRegister .mips) literal range
    refine ⟨_, .cons direct .nil, fun before => ?_⟩
    simpa [before.zero] using before.setsOnly_write d (BitVec.ofInt 32 value)
  · split
    -- Its upper half is enough.
    · rename_i noLower
      refine ⟨_, .cons upper .nil, fun before => ?_⟩
      rw [noLower, BitVec.or_zero] at halves
      rw [List.foldl_cons, List.foldl_nil, halves]
      exact before.setsOnly_write d _
    · refine ⟨_, .cons upper (.cons lower .nil), fun before => ?_⟩
      have both := before.setsOnly_write_write d (BitVec.ofNat 32 (bits (BitVec.ofInt 32 value) 31 16) <<< 16)
        fun left => left ||| BitVec.ofNat 32 (bits (BitVec.ofInt 32 value) 15 0)
      rwa [halves] at both

theorem loadRiscV_runs {rd : Text} {d : Nat} (isToken : IsToken rd) (ofRd : Arch.riscv.register? rd = some d)
    (value : Int) :
    ∃ effects, List.Forall₂ (HasEffect .riscv) (loadRiscV rd value) effects ∧
      ∀ before, Registers.SetsOnly d (BitVec.ofInt 32 value) before
        (effects.foldl (fun s effect => effect s) before) := by
  have whole := Word.shiftLeft_add_signExtend value
  have range := And.intro (BitVec.le_toInt ((BitVec.ofInt 32 value).setWidth 12))
    (BitVec.toInt_lt (x := (BitVec.ofInt 32 value).setWidth 12))
  unfold loadRiscV
  dsimp only
  unfold Word.signExtend at whole ⊢
  generalize ((BitVec.ofInt 32 value).setWidth 12).toInt = low at whole range ⊢
  have top := Word.bits_eq (BitVec.ofInt 32 (value - low)) 31 12
  have upper := RiscV.hasEffect_lui
    (by simp [isToken, isToken_of_plain (Numeral.plain_hex (bits (BitVec.ofInt 32 (value - low)) 31 12))]) ofRd
    (Numeral.literal?_hex (n := bits (BitVec.ofInt 32 (value - low)) 31 12) (by omega)) (by omega)
  have lower := RiscV.hasEffect_addi (by simp [isToken, isToken_of_plain (Numeral.plain_signed low)]) ofRd ofRd
    (Numeral.literal?_signed low (by omega) (by omega)) range
  refine ⟨_, .cons upper (.cons lower .nil), fun before => ?_⟩
  have both := before.setsOnly_write_write d (BitVec.ofNat 32 (bits (BitVec.ofInt 32 (value - low)) 31 12) <<< 12)
    fun left => left + BitVec.ofInt 32 low
  rwa [whole] at both

theorem isToken_pair {rd rs : Text} (operands : split text = [rd, rs]) : IsToken rd ∧ IsToken rs := by
  have all := isToken_of_split operands
  exact ⟨all rd (by simp), all rs (by simp)⟩

theorem nop_runs (operands : split text = []) :
    Runs arch ⟨"nop".toList, text⟩ fun before after => ∀ n, after.read n = before.read n := by
  have zero := arch.register?_zeroRegister
  have direct := hasEffect_copy ⟨isToken_zeroRegister arch, isToken_zeroRegister arch⟩ zero zero
  have known : ofMnemonic? arch "nop".toList = some nop := by cases arch <;> decide
  refine (runs_of_rewrite known ?_ (.cons direct .nil)).mono ?_
  · simp [rewrite, operands, expectCount]
  · rintro before after rfl
    exact fun n => before.read_write_zero n _

theorem li_runs {rd token : Text} {d : Nat} {value : Int} (operands : split text = [rd, token])
    (ofRd : arch.register? rd = some d) (literal : Numeral.literal? token = some value)
    (lower : -2 ^ 31 ≤ value) (upper : value ≤ 2 ^ 32 - 1) :
    Runs arch ⟨"li".toList, text⟩ (Registers.SetsOnly d (BitVec.ofInt 32 value)) := by
  have known : ofMnemonic? arch "li".toList = some li := by cases arch <;> decide
  have isConstant : isWordConstant value = true := by
    simp only [isWordConstant, Bool.and_eq_true, decide_eq_true_eq]
    omega
  have rewritten : rewrite arch li text = .ok (load arch rd value) := by
    simp [rewrite, operands, two, immediate, literal, isConstant]
  have loads : ∃ effects, List.Forall₂ (HasEffect arch) (load arch rd value) effects ∧
      ∀ before, Registers.SetsOnly d (BitVec.ofInt 32 value) before
        (effects.foldl (fun s effect => effect s) before) := by
    cases arch with
    | mips => exact loadMips_runs (isToken_pair operands).1 ofRd value
    | riscv => exact loadRiscV_runs (isToken_pair operands).1 ofRd value
  obtain ⟨effects, each, sets⟩ := loads
  refine (runs_of_rewrite known rewritten each).mono ?_
  rintro before after rfl
  exact sets before

theorem mv_runs {rd rs : Text} {d s : Nat} (operands : split text = [rd, rs])
    (ofRd : arch.register? rd = some d) (ofRs : arch.register? rs = some s) :
    Runs arch ⟨"mv".toList, text⟩ fun before => Registers.SetsOnly d (before.read s) before := by
  have known : ofMnemonic? arch "mv".toList = some mv := by cases arch <;> decide
  have direct := hasEffect_copy (isToken_pair operands) ofRd ofRs
  refine (runs_of_rewrite known ?_ (.cons direct .nil)).mono ?_
  · simp [rewrite, operands, two]
  · rintro before after rfl
    exact before.setsOnly_write d _

theorem not_runs {rd rs : Text} {d s : Nat} (operands : split text = [rd, rs])
    (ofRd : arch.register? rd = some d) (ofRs : arch.register? rs = some s) :
    Runs arch ⟨"not".toList, text⟩ fun before => Registers.SetsOnly d (~~~(before.read s)) before := by
  have known : ofMnemonic? arch "not".toList = some not := by cases arch <;> decide
  obtain ⟨direct, rewritten, effect⟩ := rewrite_not (isToken_pair operands) operands ofRd ofRs
  refine (runs_of_rewrite known rewritten (.cons effect .nil)).mono ?_
  rintro before after rfl
  exact before.setsOnly_write d _

theorem neg_runs {rd rs : Text} {d s : Nat} (operands : split text = [rd, rs])
    (ofRd : arch.register? rd = some d) (ofRs : arch.register? rs = some s) :
    Runs arch ⟨"neg".toList, text⟩ fun before => Registers.SetsOnly d (0 - before.read s) before := by
  have known : ofMnemonic? arch "neg".toList = some neg := by cases arch <;> decide
  have direct := hasEffect_negate (isToken_pair operands) ofRd ofRs
  refine (runs_of_rewrite known ?_ (.cons direct .nil)).mono ?_
  · simp [rewrite, operands, two]
  · rintro before after rfl
    exact before.setsOnly_write d _

theorem li_fails {rd token : Text} (operands : split text = [rd, token])
    (outside : ∀ value, Numeral.literal? token = some value → value < -2 ^ 31 ∨ 2 ^ 32 - 1 < value) (line : Nat) :
    ∃ cause, Statement.expand arch line ⟨"li".toList, text⟩ = .error (.invalidOperand cause) := by
  have known : ofMnemonic? arch "li".toList = some li := by cases arch <;> decide
  unfold Statement.expand
  rw [known]
  cases literal : Numeral.literal? token with
  | none =>
    refine ⟨.badImmediate token, ?_⟩
    simp [rewrite, operands, two, immediate, literal, bind, Except.bind]
  | some value =>
    have range := outside value literal
    have noConstant : isWordConstant value = false := by
      simp only [isWordConstant, Bool.and_eq_false_iff, decide_eq_false_iff_not]
      omega
    refine ⟨.notWordConstant value, ?_⟩
    simp [rewrite, operands, two, immediate, literal, noConstant, bind, Except.bind, throw, throwThe,
      MonadExceptOf.throw]

theorem feed_of_fault {e : Expansion} {line : Nat} {raw : Text} {label : Option Text} {s : Statement} {fault : Fault}
    (read : SourceLine.read raw = .ok ⟨label, some s⟩) (failed : s.expand e.arch line = .error fault) :
    (e.feed line raw).1.instrs = e.instrs ∧ (e.feed line raw).2 = some ⟨line, s.mnemonic, s.operands, fault⟩ := by
  have effect : LineEffect.ofLine e.arch line raw = ⟨label, .error ⟨line, s.mnemonic, s.operands, fault⟩⟩ := by
    simp [LineEffect.ofLine, read, failed]
  unfold Expansion.feed
  rw [effect]
  cases label <;> exact ⟨rfl, rfl⟩

theorem j_expands {text long token : Text} (operands : split text = [token])
    (same : split long = ["x0".toList, token]) (line : Nat) :
    ∃ short direct, Statement.expand .riscv line ⟨"j".toList, text⟩ = .ok [short] ∧
      Statement.expand .riscv line ⟨"jal".toList, long⟩ = .ok [direct] ∧
      ∀ labels address, PlacedInstr.encode .riscv labels ⟨short, address⟩ =
        PlacedInstr.encode .riscv labels ⟨direct, address⟩ := by
  have isToken := isToken_of_split operands token (by simp)
  have printed : split (", ".toList.intercalate [Arch.riscv.zeroRegister, token]) = ["x0".toList, token] :=
    split_intercalate (by simp [isToken, isToken_zeroRegister])
  have known : ofMnemonic? .riscv "j".toList = some j := by decide
  have direct : ofMnemonic? .riscv "jal".toList = none := by decide
  have format : Arch.riscv.format? "jal".toList = some (.riscv .jumpLink) := by decide
  refine ⟨⟨"jal".toList, ", ".toList.intercalate [Arch.riscv.zeroRegister, token], .riscv .jumpLink, line, some j⟩,
    ⟨"jal".toList, long, .riscv .jumpLink, line, none⟩, ?_, ?_, ?_⟩
  · have made := instr_of_format? (s := statement "jal" [Arch.riscv.zeroRegister, token]) format line (some j)
    refine expand_of_rewrite known ?_ (.cons made .nil)
    simp [rewrite, operands, one]
  · exact expand_of_format? direct format line
  · intro labels address
    unfold PlacedInstr.encode
    simp only [printed, same]

/-- Pseudo instructions mean what they say. `nop` changes no register, and `li`, `mv`, `not` and `neg` change no
register but their first, which they leave with the constant, the second register, its complement and its negation.
A constant that is no number or has more than 32 bits is an invalid operand and adds no instruction. The RISC-V jump
`j` is encoded like `jal` with the zero register. -/
theorem meaning_of_pseudos (arch : Arch) :
    (∀ text, split text = [] →
      Runs arch ⟨"nop".toList, text⟩ fun before after => ∀ n, after.read n = before.read n) ∧
    (∀ text rd token d value, split text = [rd, token] → arch.register? rd = some d →
      Numeral.literal? token = some value → -2 ^ 31 ≤ value → value ≤ 2 ^ 32 - 1 →
      Runs arch ⟨"li".toList, text⟩ (Registers.SetsOnly d (BitVec.ofInt 32 value))) ∧
    (∀ text rd rs d s, split text = [rd, rs] → arch.register? rd = some d → arch.register? rs = some s →
      Runs arch ⟨"mv".toList, text⟩ (fun before => Registers.SetsOnly d (before.read s) before) ∧
      Runs arch ⟨"not".toList, text⟩ (fun before => Registers.SetsOnly d (~~~(before.read s)) before) ∧
      Runs arch ⟨"neg".toList, text⟩ fun before => Registers.SetsOnly d (0 - before.read s) before) ∧
    (∀ text rd token, split text = [rd, token] →
      (∀ value, Numeral.literal? token = some value → value < -2 ^ 31 ∨ 2 ^ 32 - 1 < value) →
      ∀ (e : Expansion) line raw label, e.arch = arch →
        SourceLine.read raw = .ok ⟨label, some ⟨"li".toList, text⟩⟩ →
        (e.feed line raw).1.instrs = e.instrs ∧
          ∃ cause, (e.feed line raw).2 = some ⟨line, "li".toList, text, .invalidOperand cause⟩) ∧
    ∀ text long token, split text = [token] → split long = ["x0".toList, token] → ∀ line,
      ∃ short direct, Statement.expand .riscv line ⟨"j".toList, text⟩ = .ok [short] ∧
        Statement.expand .riscv line ⟨"jal".toList, long⟩ = .ok [direct] ∧
        ∀ labels address, PlacedInstr.encode .riscv labels ⟨short, address⟩ =
          PlacedInstr.encode .riscv labels ⟨direct, address⟩ := by
  refine ⟨fun _ operands => nop_runs operands, ?_, ?_, ?_, ?_⟩
  · intro text rd token d value operands ofRd literal lower upper
    exact li_runs operands ofRd literal lower upper
  · intro text rd rs d s operands ofRd ofRs
    exact ⟨mv_runs operands ofRd ofRs, not_runs operands ofRd ofRs, neg_runs operands ofRd ofRs⟩
  · intro text rd token operands outside e line raw label ofArch read
    subst ofArch
    have failure : ∃ cause, Statement.expand e.arch line ⟨"li".toList, text⟩ = .error (.invalidOperand cause) :=
      li_fails operands outside line
    obtain ⟨cause, failed⟩ := failure
    obtain ⟨kept, reported⟩ := feed_of_fault read failed
    exact ⟨kept, cause, reported⟩
  · intro text long token operands same line
    exact j_expands operands same line

/-- A constant whose lower half counts as negative is rounded up by the first of its two instructions. -/
theorem meaning_of_pseudos_li :
    Runs .riscv ⟨"li".toList, "a0, 0x12345fff".toList⟩ (Registers.SetsOnly 10 0x12345fff#32) :=
  (meaning_of_pseudos .riscv).2.1 _ "a0".toList "0x12345fff".toList 10 0x12345fff (by decide) (by decide) (by decide)
    (by decide) (by decide)

end Pseudo

end RiscAsm
