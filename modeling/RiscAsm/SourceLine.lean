import RiscAsm.Fault
import RiscAsm.Identifier

namespace RiscAsm

structure Statement where
  mnemonic : Text
  operands : Text
  deriving DecidableEq

structure SourceLine where
  label : Option Text := none
  statement : Option Statement := none
  deriving DecidableEq

def Statement.text (s : Statement) : Text :=
  if s.operands.isEmpty then s.mnemonic else s.mnemonic ++ ' ' :: s.operands

namespace SourceLine

/-- A comment runs from the first `#` to the end of the line. -/
def code (raw : Text) : Text := raw.takeWhile (· != '#')

/-- A statement starts with its mnemonic, whose ASCII letters are read in lower case. -/
def statementOf (text : Text) : Option Statement :=
  if text.isEmpty then none
  else match Text.cutAt Text.isBlank text with
    | some (mnemonic, operands) => some ⟨mnemonic.map Char.toLower, Text.trim operands⟩
    | none => some ⟨text.map Char.toLower, []⟩

/-- A label stands before the first colon of the code and must be an identifier. -/
def read (raw : Text) : Except Fault SourceLine :=
  let text := Text.trim (code raw)
  match Text.cutAt (· == ':') text with
  | none => .ok ⟨none, statementOf text⟩
  | some (name, rest) =>
    let name := Text.trim name
    if isIdentifier name then .ok ⟨some name, statementOf (Text.trim rest)⟩
    else .error (.invalidOperand (.badLabelName name))

end SourceLine

end RiscAsm
