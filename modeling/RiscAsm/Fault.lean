import RiscAsm.Numeral
import RiscAsm.Word

namespace RiscAsm

inductive OperandFault where
  | badLabelName (name : Text)
  | badImmediate (token : Text)
  | badRegister (token : Text)
  | badMemory (token : Text)
  | badTarget (token : Text)
  | wrongCount (expected : Nat) (shape : Text) (found : Nat)
  | wrongShape (accepted : List Text)
  | notWordConstant (value : Int)
  | signedRange (what : Text) (value : Int) (width : Nat)
  | unsignedRange (what : Text) (value : Int) (width : Nat)
  | targetRange (value : Int)
  | unalignedTarget (address : Word)
  | oddOffset (offset : Int) (token : Text)
  deriving DecidableEq

inductive Fault where
  | unknownMnemonic (mnemonic : Text)
  | duplicateLabel (name : Text) (firstLine : Nat)
  | undefinedLabel (name : Text)
  | invalidOperand (cause : OperandFault)
  | unsupportedFormat (mnemonic : Text)
  deriving DecidableEq

structure Diagnostic where
  line : Nat
  mnemonic : Text
  operands : Text
  fault : Fault
  deriving DecidableEq

namespace OperandFault

/-- Quoted choices, the last two joined by `or`. -/
def choices : List Text → Text
  | [] => []
  | [a] => Text.quoted a
  | [a, b] => Text.quoted a ++ " or ".toList ++ Text.quoted b
  | a :: rest => Text.quoted a ++ ", ".toList ++ choices rest

def message : OperandFault → Text
  | badLabelName name => "bad label name ".toList ++ Text.quoted name
  | badImmediate token => "bad immediate ".toList ++ Text.quoted token
  | badRegister token => "bad register ".toList ++ Text.quoted token
  | badMemory token => "expected memory operand like imm(reg): ".toList ++ Text.quoted token
  | badTarget token => "bad branch target ".toList ++ Text.quoted token
  | wrongCount expected shape found =>
    "expected ".toList ++ Numeral.decimal expected ++ " operand(s) (".toList ++ shape ++ "), found ".toList ++
      Numeral.decimal found
  | wrongShape accepted => "expected ".toList ++ choices accepted
  | notWordConstant value => "li value ".toList ++ Numeral.signed value ++ " is not a 32-bit constant".toList
  | signedRange what value width =>
    what ++ " ".toList ++ Numeral.signed value ++ " does not fit in a signed ".toList ++ Numeral.decimal width ++
      "-bit field (".toList ++ Numeral.signed (BitVec.intMin width).toInt ++ "..=".toList ++
      Numeral.signed (BitVec.intMax width).toInt ++ ")".toList
  | unsignedRange what value width =>
    what ++ " ".toList ++ Numeral.signed value ++ " does not fit in an unsigned ".toList ++
      Numeral.decimal width ++ "-bit field (0..=".toList ++ Numeral.decimal (BitVec.allOnes width).toNat ++ ")".toList
  | targetRange value => "target address ".toList ++ Numeral.signed value ++ " is out of range".toList
  | unalignedTarget address => "target ".toList ++ Numeral.hex address.toNat ++ " is not word-aligned".toList
  | oddOffset offset token =>
    "offset ".toList ++ Numeral.signed offset ++ " to ".toList ++ Text.quoted token ++ " is odd".toList

end OperandFault

namespace Fault

def message : Fault → Text
  | unknownMnemonic mnemonic => "unknown mnemonic ".toList ++ Text.quoted mnemonic
  | duplicateLabel name firstLine =>
    "duplicate label ".toList ++ Text.quoted name ++ " (first defined on line ".toList ++
      Numeral.decimal firstLine ++ ")".toList
  | undefinedLabel name => "undefined label ".toList ++ Text.quoted name
  | invalidOperand cause => "invalid operand: ".toList ++ cause.message
  | unsupportedFormat mnemonic => "no encoding rule for ".toList ++ Text.quoted mnemonic

end Fault

def Diagnostic.place (d : Diagnostic) : Text :=
  "line ".toList ++ Numeral.decimal d.line ++ ": ".toList ++
    Text.quoted (d.mnemonic ++ " ".toList ++ d.operands)

end RiscAsm
