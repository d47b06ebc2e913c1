import RiscAsm.LabelTable
import RiscAsm.Proofs.CheckedResults
import RiscAsm.Proofs.FieldLayouts
import RiscAsm.Proofs.OperandTokens

namespace RiscAsm

/-- What the operands of an instruction denote: the registers in the order in which they are written, the
immediate or offset, and the address it goes to. -/
structure Meaning where
  registers : List Nat := []
  number : Option Int := none
  target : Option Word := none
  deriving DecidableEq

inductive Slot where
  | register
  | number
  | memory
  | target
  deriving DecidableEq

/-- What one token denotes in a slot. -/
def Slot.read? (arch : Arch) (labels : LabelTable) (token : Text) : Slot → Option Meaning
  | register => (arch.register? token).map fun n => { registers := [n] }
  | number => (Numeral.literal? token).map fun value => { number := some value }
  | memory =>
    (Operand.memory arch token).toOption.map fun place => { registers := [place.2], number := some place.1 }
  | target => (labels.target token).toOption.map fun address => { target := some address }

namespace Meaning

def append (a b : Meaning) : Meaning := ⟨a.registers ++ b.registers, a.number <|> b.number, a.target <|> b.target⟩

/-- What a list of tokens denotes, one token for each slot. -/
def read? (arch : Arch) (labels : LabelTable) : List Slot → List Text → Option Meaning
  | [], [] => some {}
  | slot :: slots, token :: tokens => do
    let first ← slot.read? arch labels token
    let rest ← read? arch labels slots tokens
    return first.append rest
  | _, _ => none

variable {arch : Arch} {labels : LabelTable} {slot : Slot} {slots : List Slot} {tokens : List Text} {m : Meaning}

@[simp]
theorem read?_nil_eq_some : read? arch labels [] tokens = some m ↔ tokens = [] ∧ {} = m := by
  cases tokens <;> simp [read?]

@[simp]
theorem read?_cons_eq_some :
    read? arch labels (slot :: slots) tokens = some m ↔
      ∃ token more, tokens = token :: more ∧ ∃ first, slot.read? arch labels token = some first ∧
        ∃ rest, read? arch labels slots more = some rest ∧ first.append rest = m := by
  cases tokens <;> simp [read?, Option.bind_eq_some_iff]

end Meaning

/-- The bits of a number in a two's-complement field, if it lies in the field's range. -/
def signedBits? (width : Nat) (value : Int) : Option Nat :=
  if -2 ^ (width - 1) ≤ value ∧ value < 2 ^ (width - 1) then some (BitVec.ofInt width value).toNat else none

def unsignedBits? (width : Nat) (value : Int) : Option Nat :=
  if 0 ≤ value ∧ value < 2 ^ width then some value.toNat else none

theorem signedBits?_eq_some {width : Nat} {value : Int} {bits : Nat} (positive : 0 < width) :
    signedBits? width value = some bits ↔
      bits = (BitVec.ofInt width value).toNat ∧ (BitVec.ofInt width value).toInt = value := by
  rw [toInt_ofInt_eq_iff positive]
  simp [signedBits?, and_comm, eq_comm]

theorem unsignedBits?_eq_some {width : Nat} {value : Int} {bits : Nat} :
    unsignedBits? width value = some bits ↔ (bits : Int) = value ∧ bits < 2 ^ width := by
  have cast : ((2 ^ width : Nat) : Int) = 2 ^ width := by push_cast; rfl
  simp only [unsignedBits?, Option.ite_none_right_eq_some, Option.some.injEq]
  omega

theorem signedBits?_of_range {width : Nat} {value : Int} (range : -2 ^ (width - 1) ≤ value ∧ value < 2 ^ (width - 1)) :
    signedBits? width value = some (BitVec.ofInt width value).toNat :=
  if_pos range

theorem unsignedBits?_of_lt {width n : Nat} (bound : n < 2 ^ width) : unsignedBits? width n = some n :=
  unsignedBits?_eq_some.mpr ⟨rfl, bound⟩

namespace Operand

@[simp]
theorem register_eq_ok {arch : Arch} {token : Text} {number : Nat} :
    register arch token = .ok number ↔ arch.register? token = some number := by
  unfold register
  split <;> simp_all

@[simp]
theorem immediate_eq_ok {token : Text} {value : Int} :
    immediate token = .ok value ↔ Numeral.literal? token = some value := by
  unfold immediate
  split <;> simp_all

@[simp]
theorem one_eq_ok {shape : Text} {ops : List Text} {a : Text} : one shape ops = .ok a ↔ ops = [a] := by
  unfold one
  split
  · simp
  · rename_i other
    simp only [wrongCount, reduceCtorEq, false_iff]
    exact fun same => other a same

@[simp]
theorem two_eq_ok {shape : Text} {ops : List Text} {pair : Text × Text} :
    two shape ops = .ok pair ↔ ops = [pair.1, pair.2] := by
  unfold two
  split
  · simp [Prod.ext_iff]
  · rename_i other
    simp only [wrongCount, reduceCtorEq, false_iff]
    exact fun same => other _ _ same

@[simp]
theorem three_eq_ok {shape : Text} {ops : List Text} {triple : Text × Text × Text} :
    three shape ops = .ok triple ↔ ops = [triple.1, triple.2.1, triple.2.2] := by
  unfold three
  split
  · simp [Prod.ext_iff]
  · rename_i other
    simp only [wrongCount, reduceCtorEq, false_iff]
    exact fun same => other _ _ _ same

@[simp]
theorem signedField_eq_ok {value : Int} {width : Nat} {what : Text} {bits : Nat} (positive : 0 < width) :
    signedField value width what = .ok bits ↔ signedBits? width value = some bits := by
  simp only [signedField, signedBits?, toInt_ofInt_eq_iff positive]
  split <;> simp

@[simp]
theorem unsignedField_eq_ok {value : Int} {width : Nat} {what : Text} {bits : Nat} :
    unsignedField value width what = .ok bits ↔ unsignedBits? width value = some bits := by
  simp only [unsignedField, unsignedBits?, toNat_ofInt_eq_iff]
  split
  · rename_i range
    have same := (toNat_ofInt_eq_iff value).mpr range
    simp only [Except.ok.injEq, Option.some.injEq]
    omega
  · simp

theorem memory_lt {arch : Arch} {token : Text} {place : Int × Nat} (read : memory arch token = .ok place) :
    place.2 < 32 := by
  unfold memory at read
  split at read
  · cases read
  · dsimp only at read
    split at read
    all_goals
      simp only [bind_eq_ok, register_eq_ok, pure_eq_ok] at read
      obtain ⟨value, _, number, found, rfl⟩ := read
      exact Arch.register?_lt found

end Operand

theorem Slot.read?_lt {arch : Arch} {labels : LabelTable} {token : Text} {slot : Slot} {m : Meaning}
    (read : slot.read? arch labels token = some m) : ∀ n ∈ m.registers, n < 32 := by
  cases slot with
  | register =>
    obtain ⟨n, found, rfl⟩ := Option.map_eq_some_iff.mp read
    simpa using Arch.register?_lt found
  | memory =>
    obtain ⟨place, found, rfl⟩ := Option.map_eq_some_iff.mp read
    simpa using Operand.memory_lt (toOption_eq_some.mp found)
  | number =>
    obtain ⟨value, _, rfl⟩ := Option.map_eq_some_iff.mp read
    simp
  | target =>
    obtain ⟨address, _, rfl⟩ := Option.map_eq_some_iff.mp read
    simp

theorem Meaning.read?_lt {arch : Arch} {labels : LabelTable} {slots : List Slot} {tokens : List Text} {m : Meaning}
    (read : Meaning.read? arch labels slots tokens = some m) : ∀ n ∈ m.registers, n < 32 := by
  induction slots generalizing tokens m with
  | nil =>
    obtain ⟨_, rfl⟩ := read?_nil_eq_some.mp read
    simp
  | cons slot slots ih =>
    obtain ⟨token, more, _, first, ofFirst, rest, ofRest, rfl⟩ := read?_cons_eq_some.mp read
    intro n member
    rcases List.mem_append.mp member with here | later
    · exact Slot.read?_lt ofFirst n here
    · exact ih ofRest n later

theorem Slot.target_of_read? {arch : Arch} {labels : LabelTable} {token : Text} {slot : Slot} {m : Meaning}
    (other : slot ≠ target) (read : slot.read? arch labels token = some m) : m.target = none := by
  cases slot with
  | register | number | memory =>
    obtain ⟨_, _, rfl⟩ := Option.map_eq_some_iff.mp read
    rfl
  | target => exact absurd rfl other

/-- Operands that end with a target denote that target. -/
theorem Meaning.target_of_read? {arch : Arch} {labels : LabelTable} {token : Text} {m : Meaning} (slots : List Slot)
    (tokens : List Text) (others : ∀ slot ∈ slots, slot ≠ .target) (sameLength : slots.length = tokens.length)
    (read : Meaning.read? arch labels (slots ++ [.target]) (tokens ++ [token]) = some m) :
    ∃ target, labels.target token = .ok target ∧ m.target = some target := by
  induction slots generalizing tokens m with
  | nil =>
    cases List.length_eq_zero_iff.mp sameLength.symm
    obtain ⟨_, _, whole, last, ofLast, rest, ofRest, rfl⟩ := read?_cons_eq_some.mp read
    cases whole
    obtain ⟨_, rfl⟩ := read?_nil_eq_some.mp ofRest
    obtain ⟨target, found, rfl⟩ := Option.map_eq_some_iff.mp ofLast
    exact ⟨target, toOption_eq_some.mp found, rfl⟩
  | cons slot slots ih =>
    cases tokens with
    | nil => cases sameLength
    | cons token tokens =>
      obtain ⟨_, _, whole, first, ofFirst, rest, ofRest, rfl⟩ := read?_cons_eq_some.mp read
      cases whole
      have noTarget := Slot.target_of_read? (others slot List.mem_cons_self) ofFirst
      have fewer : ∀ other ∈ slots, other ≠ .target := fun other member => others other (List.mem_cons_of_mem _ member)
      obtain ⟨target, found, ofTarget⟩ := ih tokens fewer (Nat.succ.inj sameLength) ofRest
      exact ⟨target, found, by simp [append, noTarget, ofTarget]⟩

end RiscAsm
