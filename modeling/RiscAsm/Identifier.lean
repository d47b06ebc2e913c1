import RiscAsm.Text

namespace RiscAsm

/-- An identifier starts with a letter, `_` or `.` and goes on with these, digits and `$`, all ASCII. -/
def isIdentifier : Text → Bool
  | [] => false
  | c :: s =>
    (c.isAlpha || c == '_' || c == '.') && s.all fun d => d.isAlphanum || d == '_' || d == '.' || d == '$'

end RiscAsm
