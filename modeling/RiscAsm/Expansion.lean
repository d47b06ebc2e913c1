import RiscAsm.Instr

namespace RiscAsm

/-- What a source line adds to an expansion: a label, and instructions or a fault. -/
structure LineEffect where
  label : Option Text
  instrs : Except Diagnostic (List Instr)

/-- The effect of a line depends on its number and text alone. A line without a readable label adds
nothing; a label counts even if the statement after it is at fault. -/
def LineEffect.ofLine (arch : Arch) (line : Nat) (raw : Text) : LineEffect :=
  match SourceLine.read raw with
  | .error fault => ⟨none, .error ⟨line, [], Text.trim raw, fault⟩⟩
  | .ok ⟨label, none⟩ => ⟨label, .ok []⟩
  | .ok ⟨label, some s⟩ =>
    match s.expand arch line with
    | .ok instrs => ⟨label, .ok instrs⟩
    | .error fault => ⟨label, .error ⟨line, s.mnemonic, s.operands, fault⟩⟩

structure LabelDef where
  name : Text
  index : Nat
  line : Nat
  deriving DecidableEq

structure Expansion where
  arch : Arch
  instrs : Array Instr := #[]
  labels : Array LabelDef := #[]

namespace Expansion

def define (e : Expansion) (line : Nat) : Option Text → Expansion
  | some name => { e with labels := e.labels.push ⟨name, e.instrs.size, line⟩ }
  | none => e

def append (e : Expansion) (instrs : List Instr) : Expansion := { e with instrs := e.instrs ++ instrs }

/-- Adds what a line adds, and reports its fault. -/
def feed (e : Expansion) (line : Nat) (raw : Text) : Expansion × Option Diagnostic :=
  let effect := LineEffect.ofLine e.arch line raw
  let e := e.define line effect.label
  match effect.instrs with
  | .ok instrs => (e.append instrs, none)
  | .error diagnostic => (e, some diagnostic)

/-- Adds what a line adds, and stops at a fault. -/
def step (e : Expansion) (numbered : Text × Nat) : Except Diagnostic Expansion :=
  match e.feed numbered.2 numbered.1 with
  | (e, none) => .ok e
  | (_, some diagnostic) => .error diagnostic

/-- Expands a whole source, whose lines are numbered from one. -/
def ofSource (arch : Arch) (source : Text) : Except Diagnostic Expansion :=
  ((Text.lines source).zipIdx 1).foldlM step { arch }

end Expansion

end RiscAsm
