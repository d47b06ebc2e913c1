import RiscAsm.Text

namespace RiscAsm

namespace Numeral

def digit? (c : Char) : Option Nat :=
  if '0' ≤ c ∧ c ≤ '9' then some (c.toNat - '0'.toNat)
  else if 'a' ≤ c ∧ c ≤ 'f' then some (c.toNat - 'a'.toNat + 10)
  else if 'A' ≤ c ∧ c ≤ 'F' then some (c.toNat - 'A'.toNat + 10)
  else none

def step? (base value : Nat) (c : Char) : Option Nat :=
  match digit? c with
  | some d => if d < base then some (base * value + d) else none
  | none => none

def digits? (base : Nat) : Text → Option Nat
  | [] => none
  | c :: s => (c :: s).foldlM (step? base) 0

/-- An unsigned number is decimal, or hexadecimal after `0x` or `0X`. -/
def unsigned? : Text → Option Nat
  | '0' :: 'x' :: s => digits? 16 s
  | '0' :: 'X' :: s => digits? 16 s
  | s => digits? 10 s

/-- The magnitude of a literal has at most 63 bits. -/
def magnitude? (s : Text) : Option Nat := (unsigned? s).filter (· ≤ 0x7fffffffffffffff)

/-- A literal is an unsigned number with at most one sign, between optional blanks. -/
def literal? (s : Text) : Option Int :=
  match Text.trim s with
  | '-' :: body => (magnitude? body).map fun n => -(n : Int)
  | '+' :: body => (magnitude? body).map fun n => (n : Int)
  | body => (magnitude? body).map fun n => (n : Int)

/-- A 32-bit number in a given base may carry one plus sign and no minus sign. -/
def word? (base : Nat) (s : Text) : Option Nat :=
  (digits? base (match s with
    | '+' :: body => body
    | body => body)).filter (· ≤ 0xffffffff)

def decimal (n : Nat) : Text := Nat.toDigits 10 n

def signed : Int → Text
  | .ofNat n => decimal n
  | .negSucc n => '-' :: decimal (n + 1)

def hex (n : Nat) : Text := '0' :: 'x' :: Nat.toDigits 16 n

/-- At least eight hexadecimal digits, filled with zeros on the left. -/
def hex8 (n : Nat) : Text := (Nat.toDigits 16 n).leftpad 8 '0'

end Numeral

end RiscAsm
