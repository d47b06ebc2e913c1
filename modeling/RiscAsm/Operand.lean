import RiscAsm.Fault
import RiscAsm.Register

namespace RiscAsm

namespace Operand

/-- Operands stand between commas; blanks around them do not count, and neither do empty ones. -/
def split (text : Text) : List Text :=
  ((text.splitOn ',').map Text.trim).filter (fun token => !token.isEmpty)

def immediate (token : Text) : Except Fault Int :=
  match Numeral.literal? token with
  | some value => .ok value
  | none => .error (.invalidOperand (.badImmediate token))

def register (arch : Arch) (token : Text) : Except Fault Nat :=
  match arch.register? token with
  | some number => .ok number
  | none => .error (.invalidOperand (.badRegister token))

/-- Only a memory operand holds an opening parenthesis. -/
def isMemory (token : Text) : Bool := token.contains '('

def memoryParts? (token : Text) : Option (Text × Text) :=
  let token := Text.trim token
  if token.getLast? = some ')' then Text.cutAt (· == '(') token.dropLast else none

/-- The offset and base register of a memory operand; a missing offset is zero. -/
def memory (arch : Arch) (token : Text) : Except Fault (Int × Nat) :=
  match memoryParts? token with
  | none => .error (.invalidOperand (.badMemory token))
  | some (offset, base) => do
    let offset := Text.trim offset
    let value ← if offset.isEmpty then .ok 0 else immediate offset
    let number ← register arch base
    return (value, number)

def wrongCount {α : Type} (expected : Nat) (shape : Text) (ops : List Text) : Except Fault α :=
  .error (.invalidOperand (.wrongCount expected shape ops.length))

def wrongShape {α : Type} (accepted : List Text) : Except Fault α :=
  .error (.invalidOperand (.wrongShape accepted))

def expectCount (expected : Nat) (shape : Text) (ops : List Text) : Except Fault Unit :=
  if ops.length = expected then .ok () else wrongCount expected shape ops

def one (shape : Text) : List Text → Except Fault Text
  | [a] => .ok a
  | ops => wrongCount 1 shape ops

def two (shape : Text) : List Text → Except Fault (Text × Text)
  | [a, b] => .ok (a, b)
  | ops => wrongCount 2 shape ops

def three (shape : Text) : List Text → Except Fault (Text × Text × Text)
  | [a, b, c] => .ok (a, b, c)
  | ops => wrongCount 3 shape ops

/-- The bits of a value in a two's-complement field. It fits if they read back as the value. -/
def signedField (value : Int) (width : Nat) (what : Text) : Except Fault Nat :=
  let field := BitVec.ofInt width value
  if field.toInt = value then .ok field.toNat else .error (.invalidOperand (.signedRange what value width))

def unsignedField (value : Int) (width : Nat) (what : Text) : Except Fault Nat :=
  let field := BitVec.ofInt width value
  if field.toNat = value then .ok field.toNat else .error (.invalidOperand (.unsignedRange what value width))

end Operand

end RiscAsm
