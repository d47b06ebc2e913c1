import RiscAsm.Fault
import RiscAsm.Identifier

namespace RiscAsm

structure Label where
  name : Text
  address : Word
  line : Nat
  deriving DecidableEq

/-- Labels of pairwise different names, the latest first. -/
structure LabelTable where
  labels : List Label := []
  nodup : (labels.map Label.name).Nodup := by simp

namespace LabelTable

def find? (t : LabelTable) (name : Text) : Option Label := t.labels.find? fun label => label.name == name

def address? (t : LabelTable) (name : Text) : Option Word := (t.find? name).map Label.address

def size (t : LabelTable) : Nat := t.labels.length

theorem find?_eq_none {t : LabelTable} {name : Text} :
    t.find? name = none ↔ name ∉ t.labels.map Label.name := by
  simp [find?]

def insert (t : LabelTable) (label : Label) (fresh : t.find? label.name = none) : LabelTable where
  labels := label :: t.labels
  nodup := List.nodup_cons.mpr ⟨find?_eq_none.mp fresh, t.nodup⟩

/-- A second definition of a name is a fault at its own line that names the first. -/
def define (t : LabelTable) (label : Label) : Except Diagnostic LabelTable :=
  match h : t.find? label.name with
  | none => .ok (t.insert label h)
  | some first => .error ⟨label.line, label.name ++ [':'], [], .duplicateLabel label.name first.line⟩

theorem define_of_fresh {t : LabelTable} {label : Label} (fresh : t.find? label.name = none) :
    t.define label = .ok (t.insert label fresh) := by
  unfold define
  split
  · rfl
  · rename_i first found
    rw [fresh] at found
    cases found

theorem define_of_found {t : LabelTable} {label first : Label} (found : t.find? label.name = some first) :
    t.define label = .error ⟨label.line, label.name ++ [':'], [], .duplicateLabel label.name first.line⟩ := by
  unfold define
  split
  · rename_i fresh
    rw [found] at fresh
    cases fresh
  · rename_i other again
    rw [found] at again
    cases again
    rfl

def precedes (a b : Label) : Bool :=
  a.address.toNat < b.address.toNat ||
    a.address.toNat == b.address.toNat && a.name.lex b.name fun c d => c.toNat < d.toNat

def sorted (t : LabelTable) : List Label := t.labels.mergeSort fun a b => !precedes b a

/-- A branch or jump goes to a label or to a literal address. -/
def target (t : LabelTable) (token : Text) : Except Fault Word :=
  match t.address? token with
  | some address => .ok address
  | none =>
    match Numeral.literal? token with
    | some value =>
      if 0 ≤ value ∧ value ≤ 0xffffffff then .ok (BitVec.ofInt 32 value)
      else .error (.invalidOperand (.targetRange value))
    | none =>
      if isIdentifier token then .error (.undefinedLabel token)
      else .error (.invalidOperand (.badTarget token))

end LabelTable

end RiscAsm
