import RiscAsm.Arch

namespace RiscAsm

namespace Arch

/-- Register names with their numbers; the first name of a number is the one written. -/
def registerNames : Arch → List (Text × Nat)
  | mips =>
    [("zero".toList, 0), ("at".toList, 1), ("v0".toList, 2), ("v1".toList, 3),
      ("a0".toList, 4), ("a1".toList, 5), ("a2".toList, 6), ("a3".toList, 7),
      ("t0".toList, 8), ("t1".toList, 9), ("t2".toList, 10), ("t3".toList, 11),
      ("t4".toList, 12), ("t5".toList, 13), ("t6".toList, 14), ("t7".toList, 15),
      ("s0".toList, 16), ("s1".toList, 17), ("s2".toList, 18), ("s3".toList, 19),
      ("s4".toList, 20), ("s5".toList, 21), ("s6".toList, 22), ("s7".toList, 23),
      ("t8".toList, 24), ("t9".toList, 25), ("k0".toList, 26), ("k1".toList, 27),
      ("gp".toList, 28), ("sp".toList, 29), ("fp".toList, 30), ("s8".toList, 30), ("ra".toList, 31)]
  | riscv =>
    [("zero".toList, 0), ("ra".toList, 1), ("sp".toList, 2), ("gp".toList, 3),
      ("tp".toList, 4), ("t0".toList, 5), ("t1".toList, 6), ("t2".toList, 7),
      ("s0".toList, 8), ("fp".toList, 8), ("s1".toList, 9), ("a0".toList, 10),
      ("a1".toList, 11), ("a2".toList, 12), ("a3".toList, 13), ("a4".toList, 14),
      ("a5".toList, 15), ("a6".toList, 16), ("a7".toList, 17), ("s2".toList, 18),
      ("s3".toList, 19), ("s4".toList, 20), ("s5".toList, 21), ("s6".toList, 22),
      ("s7".toList, 23), ("s8".toList, 24), ("s9".toList, 25), ("s10".toList, 26),
      ("s11".toList, 27), ("t3".toList, 28), ("t4".toList, 29), ("t5".toList, 30),
      ("t6".toList, 31)]

/-- A MIPS register may be written after one dollar sign. -/
def dropSigil : Arch → Text → Text
  | mips, '$' :: s => s
  | _, s => s

/-- A numbered RISC-V register may be written after one `x`. -/
def dropNumberMark : Arch → Text → Text
  | riscv, 'x' :: s => s
  | _, s => s

/-- The register number below 32 that a token denotes, by name or by number. -/
def register? (arch : Arch) (token : Text) : Option Nat :=
  let name := arch.dropSigil (Text.trim token)
  match arch.registerNames.find? (fun entry => entry.1 == name) with
  | some entry => some entry.2
  | none => (Numeral.digits? 10 (arch.dropNumberMark name)).filter (· < 32)

/-- The name of a register number; a number without a name is written in decimal. -/
def registerName (arch : Arch) (number : Nat) : Text :=
  let name := match arch.registerNames.find? (fun entry => entry.2 == number) with
    | some entry => entry.1
    | none => Numeral.decimal number
  match arch with
  | mips => '$' :: name
  | riscv => name

def zeroRegister : Arch → Text
  | mips => "$0".toList
  | riscv => "x0".toList

/-- The register that receives the return address when none is written. -/
def linkRegister : Arch → Nat
  | mips => 31
  | riscv => 1

theorem register?_lt {arch : Arch} {token : Text} {number : Nat} (h : arch.register? token = some number) :
    number < 32 := by
  have named : ∀ entry ∈ arch.registerNames, entry.2 < 32 := by cases arch <;> decide
  unfold register? at h
  dsimp only at h
  split at h
  · rename_i entry found
    cases h
    exact named entry (List.mem_of_find?_eq_some found)
  · simp only [Option.filter_eq_some_iff, decide_eq_true_eq] at h
    exact h.2

end Arch

end RiscAsm
