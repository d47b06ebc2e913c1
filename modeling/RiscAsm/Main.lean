import RiscAsm.CommandLine.Assemble
import RiscAsm.CommandLine.Disassemble

namespace RiscAsm

namespace CommandLine

def systemFiles : FileAccess IO where
  read path := do
    try
      let bytes ← IO.FS.readBinFile (String.ofList path)
      match String.fromUTF8? bytes with
      | some text => return .ok text.toList
      | none => return .error .notText
    catch _ => return .error .missing
  write path text := do
    try
      IO.FS.writeFile (String.ofList path) (String.ofList text)
      return .ok ()
    catch _ => return .error .missing

def usage : String :=
  "usage: asm [-a ARCH] [--config FILE] [-o FILE] [--list] [--labels-out FILE] [--no-comment] INPUT\n" ++
    "       dis [-a ARCH] [--base ADDRESS] [--format text|json] [--out FILE] INPUT\n"

def dispatch : List Text → IO Outcome
  | ['a', 's', 'm'] :: args => Assemble.execute systemFiles args
  | ['d', 'i', 's'] :: args => Disassemble.execute systemFiles args
  | _ => return .misuse

end CommandLine

end RiscAsm

def main (args : List String) : IO UInt32 := do
  let outcome ← RiscAsm.CommandLine.dispatch (args.map String.toList)
  IO.print (String.ofList outcome.output)
  match outcome.report with
  | some report => IO.eprint (String.ofList report)
  | none => IO.eprint RiscAsm.CommandLine.usage
  return UInt32.ofNat outcome.status
