import RiscAsm.CommandLine.Arguments
import RiscAsm.CommandLine.Outcome
import RiscAsm.Listing
import RiscAsm.Settings

namespace RiscAsm

def Assembly.labelRecords (a : Assembly) : List Json.Record :=
  a.program.labels.sorted.map fun label =>
    [("name".toList, Json.quoted label.name), ("addr".toList, Numeral.decimal label.address.toNat)]

namespace CommandLine

structure Assemble where
  input : Text
  arch : Option Arch := none
  settings : Option Text := none
  output : Option Text := none
  labels : Option Text := none
  listing : Bool := false
  noComment : Bool := false

namespace Assemble

def specs : List OptionSpec :=
  [{ name := "arch".toList, letter := some 'a' }, { name := "config".toList },
    { name := "output".toList, letter := some 'o' }, { name := "labels-out".toList },
    { name := "list".toList, isFlag := true }, { name := "no-comment".toList, isFlag := true }]

def ofArgs? (args : List Text) : Option Assemble := do
  let arguments ← Arguments.read? specs args
  let arch ← arguments.value? "arch".toList Arch.ofKeyword?
  let settings ← arguments.value? "config".toList Arguments.path?
  let output ← arguments.value? "output".toList Arguments.path?
  let labels ← arguments.value? "labels-out".toList Arguments.path?
  let listing ← arguments.flag? "list".toList
  let noComment ← arguments.flag? "no-comment".toList
  let input ← arguments.input?
  return { input, arch, settings, output, labels, listing, noComment }

/-- Options win over a settings file. -/
def override (c : Assemble) (s : Settings) : Settings where
  arch := c.arch.getD s.arch
  comment := s.comment && !c.noComment

def defaultOutput : Arch → Text
  | .mips => "out.coe".toList
  | .riscv => "riscv_out.coe".toList

def imageComment (arch : Arch) : Text := arch.title ++ " instructions generated by rvmips-asm".toList

def image (s : Settings) (words : List Word) : Text :=
  Coe.render words (if s.comment then some (imageComment s.arch) else none)

variable {m : Type → Type} [Monad m]

def readSettings (files : FileAccess m) (c : Assemble) : ExceptT Failure m Settings :=
  match c.settings with
  | none => return c.override {}
  | some path => do
    let text ← files.readOr (.reading path) path
    match Settings.read? text with
    | some s => return c.override s
    | none => throw (.parsingSettings path)

/-- Nothing is written unless the whole source assembles. The image is written before the labels, and
both before anything is printed. -/
def run (files : FileAccess m) (c : Assemble) : ExceptT Failure m Text := do
  let s ← c.readSettings files
  let source ← files.readOr (.reading c.input) c.input
  match Assembly.ofSource s.arch source with
  | .error diagnostic => throw (.assembling diagnostic)
  | .ok a => do
    let output := c.output.getD (defaultOutput s.arch)
    files.writeOr (.writing output) output (image s a.words)
    if let some path := c.labels then files.writeOr (.writing path) path (Json.pretty a.labelRecords)
    return (if c.listing then a.listing else []) ++ Numeral.decimal a.words.length ++ " words written to ".toList ++
      output ++ ['\n']

def execute (files : FileAccess m) (args : List Text) : m Outcome :=
  Outcome.ofCommand ((ofArgs? args).map (run files))

end Assemble

end CommandLine

end RiscAsm
