import RiscAsm.Listing
import RiscAsm.Proofs.CanonicalSource

namespace RiscAsm

open Text

/-- Names of labels by the addresses that they are bound to. -/
abbrev LabelGroups := Std.TreeMap Nat (List Text)

namespace LabelGroups

def push (groups : LabelGroups) (label : Label) : LabelGroups :=
  groups.alter label.address.toNat fun names => some (names.getD [] ++ [label.name])

def ofLabels (labels : List Label) : LabelGroups := labels.foldl push ∅

end LabelGroups

namespace Assembly

variable {arch : Arch} {source : Text} {a : Assembly}

/-- The address of an instruction follows from its index, and the end has the next one. -/
theorem addresses (accepted : ofSource arch source = .ok a) :
    a.program.instrs.map PlacedInstr.address ++ [a.program.endAddress] =
      (List.range (a.program.instrs.length + 1)).map addressOf := by
  have instrs : a.program.instrs.map PlacedInstr.address = (List.range a.program.instrs.length).map addressOf := by
    refine List.ext_getElem (by simp) fun i inside _ => ?_
    have atIndex := List.getElem?_eq_getElem (show i < a.program.instrs.length by simpa using inside)
    simpa using (encoded_of_getElem? accepted atIndex).2.1
  rw [List.range_succ, List.map_append, instrs]
  rfl

end Assembly

end RiscAsm
