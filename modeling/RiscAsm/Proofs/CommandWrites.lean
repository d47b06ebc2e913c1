import RiscAsm.CommandLine.Assemble
import RiscAsm.Proofs.LawfulFiles
import RiscAsm.Proofs.RenderedImage

namespace RiscAsm

namespace CommandLine

namespace Assemble

/-- The output file is named by an option, or else after the instruction set. -/
def outputPath (c : Assemble) (s : Settings) : Text := c.output.getD (defaultOutput s.arch)

def labelWrites (c : Assemble) (a : Assembly) : List (Text × Text) :=
  (c.labels.map fun path => (path, Json.pretty a.labelRecords)).toList

/-- The files that a command writes with their texts, in order. -/
def writes (c : Assemble) (s : Settings) (a : Assembly) : List (Text × Text) :=
  (c.outputPath s, image s a.words) :: c.labelWrites a

/-- What a command prints after its writes. -/
def printed (c : Assemble) (s : Settings) (a : Assembly) : Text :=
  (if c.listing then a.listing else []) ++ Numeral.decimal a.words.length ++ " words written to ".toList ++
    c.outputPath s ++ ['\n']

variable {σ : Type} {files : FileAccess (StateM σ)} {content : σ → Text → Option (Option Text)} {before : σ}
  {c : Assemble} {s loaded : Settings} {a : Assembly}

end Assemble

end CommandLine

end RiscAsm
