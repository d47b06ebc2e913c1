import RiscAsm.Coe
import RiscAsm.CommandLine.Files
import RiscAsm.Fault

namespace RiscAsm

namespace CommandLine

inductive Failure where
  | assembling (diagnostic : Diagnostic)
  | reading (path : Text) (cause : FileFault)
  | writing (path : Text) (cause : FileFault)
  | writingRows (cause : FileFault)
  | parsingSettings (path : Text)
  | parsingImage (path : Text) (cause : CoeError)
  | unalignedBase
  deriving DecidableEq

namespace Failure

def withCause (context cause : Text) : Text :=
  "Error: ".toList ++ context ++ "\n\nCaused by:\n    ".toList ++ cause ++ ['\n']

/-- The report on the error stream. Of unreadable settings only the path is reported. -/
def report : Failure → Text
  | assembling d => "error: ".toList ++ d.place ++ ": ".toList ++ d.fault.message ++ ['\n']
  | reading path cause => withCause ("reading ".toList ++ path) cause.message
  | writing path cause => withCause ("writing ".toList ++ path) cause.message
  | writingRows cause => "Error: ".toList ++ cause.message ++ ['\n']
  | parsingSettings path => "Error: parsing ".toList ++ path
  | parsingImage path cause => withCause ("parsing ".toList ++ path) cause.message
  | unalignedBase => "Error: --base must be word-aligned\n".toList

end Failure

/-- The exit status and output of a command. Without a report the arguments were not understood. -/
structure Outcome where
  status : Nat
  output : Text
  report : Option Text

namespace Outcome

def misuse : Outcome := ⟨2, [], none⟩

def ofResult : Except Failure Text → Outcome
  | .ok output => ⟨0, output, some []⟩
  | .error failure => ⟨1, [], some failure.report⟩

variable {m : Type → Type} [Monad m]

def ofCommand (command : Option (ExceptT Failure m Text)) : m Outcome :=
  match command with
  | none => return misuse
  | some run => do
    let result ← run.run
    return ofResult result

end Outcome

namespace FileAccess

variable {m : Type → Type} [Monad m]

def readOr (files : FileAccess m) (failure : FileFault → Failure) (path : Text) : ExceptT Failure m Text :=
  ExceptT.adapt failure (ExceptT.mk (files.read path))

def writeOr (files : FileAccess m) (failure : FileFault → Failure) (path text : Text) : ExceptT Failure m Unit :=
  ExceptT.adapt failure (ExceptT.mk (files.write path text))

end FileAccess

end CommandLine

end RiscAsm
