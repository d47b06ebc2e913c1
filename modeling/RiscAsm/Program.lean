import RiscAsm.Expansion
import RiscAsm.LabelTable

namespace RiscAsm

structure PlacedInstr extends Instr where
  address : Word
  deriving DecidableEq

/-- Instructions at consecutive word addresses, with all labels of the source. -/
structure Program where
  arch : Arch
  instrs : List PlacedInstr
  labels : LabelTable

/-- The address of the word at an index of a memory image that starts at zero. -/
def addressOf (index : Nat) : Word := BitVec.ofNat 32 (4 * index)

namespace Program

def place (instrs : List Instr) : List PlacedInstr :=
  instrs.zipIdx.map fun numbered => { numbered.1 with address := addressOf numbered.2 }

/-- A label binds to the next instruction, or to the end of the program. -/
def bindLabels (labels : List LabelDef) : Except Diagnostic LabelTable :=
  labels.foldlM (fun table label => table.define ⟨label.name, addressOf label.index, label.line⟩) {}

def ofExpansion (e : Expansion) : Except Diagnostic Program := do
  let labels ← bindLabels e.labels.toList
  return ⟨e.arch, place e.instrs.toList, labels⟩

def endAddress (p : Program) : Word := addressOf p.instrs.length

theorem place_getElem? (instrs : List Instr) (i : Nat) :
    (place instrs)[i]? = instrs[i]?.map fun instr => { instr with address := addressOf i } := by
  simp only [place, List.getElem?_map, List.getElem?_zipIdx, Option.map_map, Nat.zero_add]
  rfl

theorem place_length (instrs : List Instr) : (place instrs).length = instrs.length := by simp [place]

end Program

end RiscAsm
