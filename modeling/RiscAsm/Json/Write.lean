import RiscAsm.Numeral

namespace RiscAsm

namespace Json

/-- Quotes, backslashes and control characters are escaped. -/
def escaped (c : Char) : Text :=
  match c with
  | '"' => ['\\', '"']
  | '\\' => ['\\', '\\']
  | '\x08' => ['\\', 'b']
  | '\x0c' => ['\\', 'f']
  | '\n' => ['\\', 'n']
  | '\r' => ['\\', 'r']
  | '\t' => ['\\', 't']
  | c =>
    if c.toNat < 0x20 then "\\u".toList ++ (Nat.toDigits 16 c.toNat).leftpad 4 '0' else [c]

def quoted (s : Text) : Text := '"' :: s.flatMap escaped ++ ['"']

abbrev Record := List (Text × Text)

def compact (record : Record) : Text :=
  '\x7b' :: [','].intercalate (record.map fun member => quoted member.1 ++ ':' :: member.2) ++ ['\x7d']

/-- A nonempty record inside an array, two blanks to each step of nesting. -/
def indented (record : Record) : Text :=
  "  \x7b\n".toList ++
    ",\n".toList.intercalate (record.map fun member => "    ".toList ++ quoted member.1 ++ ": ".toList ++ member.2) ++
    "\n  \x7d".toList

/-- An array of records over several lines; an empty array stays on one. -/
def pretty (records : List Record) : Text :=
  if records.isEmpty then "[]".toList
  else "[\n".toList ++ ",\n".toList.intercalate (records.map indented) ++ "\n]".toList

end Json

end RiscAsm
