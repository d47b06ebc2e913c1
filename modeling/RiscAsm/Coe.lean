import RiscAsm.Numeral
import RiscAsm.Word

namespace RiscAsm

/-- Why a text is no memory image in the COE format, which has a radix and then a vector of words that
a semicolon ends. -/
inductive CoeError where
  | missingRadix
  | unsupportedRadix (radix : Text)
  | missingVector
  | badWord (index : Nat) (word : Text)
  | unterminated
  deriving DecidableEq

def CoeError.message : CoeError → Text
  | missingRadix => "missing ".toList ++ Text.quoted "memory_initialization_radix".toList ++ " header".toList
  | unsupportedRadix radix => "unsupported radix ".toList ++ radix ++ " (only 16 is supported)".toList
  | missingVector => "missing ".toList ++ Text.quoted "memory_initialization_vector=".toList ++ " header".toList
  | badWord index word => "bad word ".toList ++ Text.quoted word ++ " at entry ".toList ++ Numeral.decimal index
  | unterminated => "vector is not terminated by ".toList ++ Text.quoted [';']

namespace Coe

def radixKey : Text := "memory_initialization_radix=".toList
def vectorKey : Text := "memory_initialization_vector=".toList

def renderVector (words : List Word) : Text :=
  [',', '\n'].intercalate (words.map fun word => Numeral.hex8 word.toNat) ++ [';', '\n']

def render (words : List Word) (comment : Option Text) : Text :=
  Text.ofLines ((comment.map fun c => ';' :: ' ' :: c).toList ++ [radixKey ++ "16;".toList, vectorKey]) ++
    renderVector words

inductive HeaderLine where
  | blankOrComment
  | radix (value : Text)
  | vector (start : Text)
  | other
  deriving DecidableEq

/-- Blanks do not count anywhere in a header line, and semicolons do not count after the radix. -/
def HeaderLine.read (line : Text) : HeaderLine :=
  match Text.trim line with
  | [] => blankOrComment
  | ';' :: _ => blankOrComment
  | line =>
    let compact := line.filter fun c => !Text.isBlank c
    match radixKey.isPrefixOf? compact with
    | some value => radix (value.reverse.dropWhile (· == ';')).reverse
    | none =>
      match vectorKey.isPrefixOf? compact with
      | some start => vector start
      | none => other

def findVector (radixSeen : Bool) : List Text → Except CoeError (Text × List Text)
  | [] => .error (if radixSeen then .missingVector else .missingRadix)
  | line :: rest =>
    match HeaderLine.read line with
    | .radix value => if value = "16".toList then findVector true rest else .error (.unsupportedRadix value)
    | .vector start => if radixSeen then .ok (start, rest) else .error .missingRadix
    | .blankOrComment | .other => findVector radixSeen rest

/-- The entries before the first semicolon; lines are joined without a separator. -/
def vectorText? (start : Text) (rest : List Text) : Option Text :=
  (Text.cutAt (· == ';') (start ++ rest.flatMap Text.trim)).map (·.1)

def entries (vector : Text) : List Text :=
  (vector.splitOnP fun c => c == ',' || Text.isBlank c).filter fun token => !token.isEmpty

def readWord (numbered : Text × Nat) : Except CoeError Word :=
  match Numeral.word? 16 numbered.1 with
  | some value => .ok (BitVec.ofNat 32 value)
  | none => .error (.badWord numbered.2 numbered.1)

/-- Reads an image; what follows the vector is ignored. -/
def parse (text : Text) : Except CoeError (List Word) := do
  let (start, rest) ← findVector false (Text.lines text)
  match vectorText? start rest with
  | some vector => (entries vector).zipIdx.mapM readWord
  | none => throw .unterminated

end Coe

end RiscAsm
