import RiscAsm.Assembly

namespace RiscAsm

namespace Assembly

/-- Labels stand on lines of their own, in the order of their names. -/
def labelLines (labels : List Label) (address : Word) : List Text :=
  (labels.filter fun label => label.address == address).map fun label => label.name ++ [':']

def instrLine (instr : PlacedInstr) (word : Word) : Text :=
  let statement := Statement.text ⟨instr.mnemonic, instr.operands⟩
  let origin := match instr.origin with
    | some pseudo => " (from ".toList ++ pseudo.mnemonic ++ [')']
    | none => []
  Numeral.hex8 instr.address.toNat ++ ": ".toList ++ Numeral.hex8 word.toNat ++ "  ".toList ++
    statement.rightpad 28 ' ' ++ " ; line ".toList ++ Numeral.decimal instr.line ++ origin

/-- Every label stands in front of the instruction it binds to, or at the end. -/
def listingLines (a : Assembly) : List Text :=
  let labels := a.program.labels.sorted
  (a.program.instrs.zip a.words).flatMap (fun placed =>
    labelLines labels placed.1.address ++ [instrLine placed.1 placed.2]) ++
    labelLines labels a.program.endAddress

def listing (a : Assembly) : Text := Text.ofLines a.listingLines

end Assembly

end RiscAsm
