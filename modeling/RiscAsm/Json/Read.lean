import RiscAsm.Numeral

namespace RiscAsm

/-- A JSON value. A string, and a member's name, is `none` if an escape in it names one half of a
surrogate pair without the other. -/
inductive Json where
  | null
  | bool (value : Bool)
  | number
  | string (value : Option Text)
  | array (items : List Json)
  | object (members : List (Option Text × Json))

namespace Json

def skipBlanks (s : Text) : Text := s.dropWhile fun c => c == ' ' || c == '\t' || c == '\n' || c == '\r'

/-- The UTF-16 units that a string is written with: whole characters, or escaped units. -/
inductive StringUnit where
  | char (c : Char)
  | escaped (unit : Nat)

def escape? : Char → Option Char
  | '"' => some '"'
  | '\\' => some '\\'
  | '/' => some '/'
  | 'b' => some '\x08'
  | 'f' => some '\x0c'
  | 'n' => some '\n'
  | 'r' => some '\r'
  | 't' => some '\t'
  | _ => none

/-- The units up to the closing quote, and the text after it. Control characters must be escaped. -/
def stringUnits : Text → Option (List StringUnit × Text)
  | [] => none
  | '"' :: s => some ([], s)
  | '\\' :: 'u' :: a :: b :: c :: d :: s =>
    match Numeral.digits? 16 [a, b, c, d], stringUnits s with
    | some unit, some (units, rest) => some (.escaped unit :: units, rest)
    | _, _ => none
  | '\\' :: c :: s =>
    match escape? c, stringUnits s with
    | some c, some (units, rest) => some (.char c :: units, rest)
    | _, _ => none
  | c :: s =>
    if c.toNat < 0x20 then none
    else match stringUnits s with
      | some (units, rest) => some (.char c :: units, rest)
      | none => none

/-- Two escaped halves of a surrogate pair make one character. -/
def joinUnits : List StringUnit → Option Text
  | [] => some []
  | .char c :: units => (joinUnits units).map (c :: ·)
  | .escaped high :: .escaped low :: units =>
    if 0xd800 ≤ high ∧ high < 0xdc00 then
      if 0xdc00 ≤ low ∧ low < 0xe000 then
        (joinUnits units).map (Char.ofNat (0x10000 + (high - 0xd800) * 0x400 + (low - 0xdc00)) :: ·)
      else none
    else if 0xdc00 ≤ high ∧ high < 0xe000 then none
    else (joinUnits (.escaped low :: units)).map (Char.ofNat high :: ·)
  | .escaped unit :: units =>
    if 0xd800 ≤ unit ∧ unit < 0xe000 then none else (joinUnits units).map (Char.ofNat unit :: ·)

def string? (s : Text) : Option (Option Text × Text) :=
  (stringUnits s).map fun read => (joinUnits read.1, read.2)

def afterDigits? : Text → Option Text
  | c :: s => if c.isDigit then some (s.dropWhile Char.isDigit) else none
  | [] => none

/-- A whole part has no leading zeros. -/
def afterWhole? : Text → Option Text
  | '0' :: s => some s
  | s => afterDigits? s

def afterFraction? : Text → Option Text
  | '.' :: s => afterDigits? s
  | s => some s

def afterSign : Text → Text
  | '+' :: s => s
  | '-' :: s => s
  | s => s

def afterExponent? : Text → Option Text
  | 'e' :: s => afterDigits? (afterSign s)
  | 'E' :: s => afterDigits? (afterSign s)
  | s => some s

def afterNumber? (s : Text) : Option Text := do
  let s ← afterWhole? (match s with
    | '-' :: s => s
    | s => s)
  let s ← afterFraction? s
  afterExponent? s

mutual

/-- The value at the start of a text, and the text after it. Each step of nesting takes fuel. -/
def value? : Nat → Text → Option (Json × Text)
  | 0, _ => none
  | fuel + 1, s =>
    match skipBlanks s with
    | 'n' :: 'u' :: 'l' :: 'l' :: s => some (.null, s)
    | 't' :: 'r' :: 'u' :: 'e' :: s => some (.bool true, s)
    | 'f' :: 'a' :: 'l' :: 's' :: 'e' :: s => some (.bool false, s)
    | '"' :: s => (string? s).map fun read => (.string read.1, read.2)
    | '[' :: s =>
      match skipBlanks s with
      | ']' :: s => some (.array [], s)
      | s => (items? fuel s).map fun read => (.array read.1, read.2)
    | '{' :: s =>
      match skipBlanks s with
      | '}' :: s => some (.object [], s)
      | s => (members? fuel s).map fun read => (.object read.1, read.2)
    | s => (afterNumber? s).map fun rest => (.number, rest)

def items? : Nat → Text → Option (List Json × Text)
  | 0, _ => none
  | fuel + 1, s => do
    let (item, s) ← value? fuel s
    match skipBlanks s with
    | ',' :: s => (items? fuel s).map fun read => (item :: read.1, read.2)
    | ']' :: s => some ([item], s)
    | _ => none

def members? : Nat → Text → Option (List (Option Text × Json) × Text)
  | 0, _ => none
  | fuel + 1, s =>
    match skipBlanks s with
    | '"' :: s => do
      let (name, s) ← string? s
      match skipBlanks s with
      | ':' :: s => do
        let (value, s) ← value? fuel s
        match skipBlanks s with
        | ',' :: s => (members? fuel s).map fun read => ((name, value) :: read.1, read.2)
        | '}' :: s => some ([(name, value)], s)
        | _ => none
      | _ => none
    | _ => none

end

/-- Reads a text that holds one value and nothing else but blanks. -/
def read? (s : Text) : Option Json :=
  match value? (2 * s.length + 2) s with
  | some (value, rest) => if (skipBlanks rest).isEmpty then some value else none
  | none => none

end Json

end RiscAsm
