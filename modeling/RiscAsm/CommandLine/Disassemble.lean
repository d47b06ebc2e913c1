import RiscAsm.CommandLine.Arguments
import RiscAsm.CommandLine.Outcome
import RiscAsm.Disassembly
import RiscAsm.Json.Write

namespace RiscAsm

/-- A row of a disassembly as a record; a word that is no instruction has no text. -/
def Row.record (row : Row) : Json.Record :=
  [("addr".toList, Numeral.decimal row.address.toNat), ("word".toList, Numeral.decimal row.word.toNat),
    ("text".toList, match row.statement with
      | some statement => Json.quoted statement.text
      | none => "null".toList)]

namespace CommandLine

inductive RowFormat where
  | text
  | json
  deriving DecidableEq

def RowFormat.ofKeyword? (s : Text) : Option RowFormat :=
  if s = "text".toList then some text else if s = "json".toList then some json else none

def RowFormat.render : RowFormat → List Row → Text
  | text, rows => Text.ofLines (rows.map Row.text)
  | json, rows => Json.pretty (rows.map Row.record) ++ ['\n']

structure Disassemble where
  input : Text
  arch : Arch := .mips
  base : Word := 0
  format : RowFormat := .text
  output : Option Text := none

namespace Disassemble

def specs : List OptionSpec :=
  [{ name := "arch".toList, letter := some 'a' }, { name := "base".toList }, { name := "format".toList },
    { name := "out".toList }]

/-- An address is decimal, or hexadecimal after `0x` or `0X`, between optional blanks. -/
def readAddress? (s : Text) : Option Word :=
  (match Text.trim s with
    | '0' :: 'x' :: digits => Numeral.word? 16 digits
    | '0' :: 'X' :: digits => Numeral.word? 16 digits
    | digits => Numeral.word? 10 digits).map (BitVec.ofNat 32)

def ofArgs? (args : List Text) : Option Disassemble := do
  let arguments ← Arguments.read? specs args
  let arch ← arguments.value? "arch".toList Arch.ofKeyword?
  let base ← arguments.value? "base".toList readAddress?
  let format ← arguments.value? "format".toList RowFormat.ofKeyword?
  let output ← arguments.value? "out".toList Arguments.path?
  let input ← arguments.input?
  return { input, arch := arch.getD .mips, base := base.getD 0, format := format.getD .text, output }

variable {m : Type → Type} [Monad m]

/-- The image is read before the base address is checked. -/
def readWords (files : FileAccess m) (c : Disassemble) : ExceptT Failure m (List Word) := do
  let text ← files.readOr (.reading c.input) c.input
  match Coe.parse text with
  | .error cause => throw (.parsingImage c.input cause)
  | .ok words => if c.base.toNat % 4 = 0 then return words else throw .unalignedBase

/-- The rows are printed unless they go to a file. -/
def run (files : FileAccess m) (c : Disassemble) : ExceptT Failure m Text := do
  let words ← c.readWords files
  let text := c.format.render (Row.ofWords c.arch c.base words)
  match c.output with
  | none => return text
  | some path => do
    files.writeOr .writingRows path text
    return []

def execute (files : FileAccess m) (args : List Text) : m Outcome :=
  Outcome.ofCommand ((ofArgs? args).map (run files))

end Disassemble

end CommandLine

end RiscAsm
