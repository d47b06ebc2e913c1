namespace RiscAsm

/-- Machine words and addresses have 32 bits and wrap around. -/
abbrev Word := BitVec 32

namespace Word

/-- The unsigned value of the bits `hi` down to `lo`. -/
def bits (word : Word) (hi lo : Nat) : Nat := (word.extractLsb' lo (hi + 1 - lo)).toNat

/-- The two's-complement reading of the lowest bits of a word. -/
def signExtend (word : Word) (width : Nat) : Int := (word.setWidth width).toInt

end Word

end RiscAsm
