import RiscAsm.Text

namespace RiscAsm

namespace CommandLine

/-- An option with its long name and, if it has one, its letter. A flag takes no value. -/
structure OptionSpec where
  name : Text
  letter : Option Char := none
  isFlag : Bool := false

structure Arguments where
  options : List (Text × Text) := []
  flags : List Text := []
  inputs : List Text := []

namespace Arguments

def addOption (a : Arguments) (name value : Text) : Arguments := { a with options := (name, value) :: a.options }

def addFlag (a : Arguments) (name : Text) : Arguments := { a with flags := name :: a.flags }

def addInput (a : Arguments) (input : Text) : Arguments := { a with inputs := input :: a.inputs }

/-- A single dash is an ordinary argument; anything longer that starts with a dash is not. -/
def isDashed : Text → Bool
  | '-' :: _ :: _ => true
  | _ => false

def splitLong (body : Text) : Text × Option Text :=
  match Text.cutAt (· == '=') body with
  | some (name, value) => (name, some value)
  | none => (body, none)

/-- A letter may be followed at once by its value, with or without an equals sign. -/
def attachedToLetter : Text → Option Text
  | [] => none
  | '=' :: value => some value
  | value => some value

def option? (specs : List OptionSpec) : Text → Option (OptionSpec × Option Text)
  | '-' :: '-' :: body =>
    let (name, value) := splitLong body
    (specs.find? fun spec => spec.name == name).map (·, value)
  | '-' :: c :: body => (specs.find? fun spec => spec.letter == some c).map (·, attachedToLetter body)
  | _ => none

/-- Sorts the arguments; a double dash ends the options. Unknown options, missing values and values
of flags are refused. A value that stands alone is not dashed. -/
def read? (specs : List OptionSpec) : List Text → Option Arguments
  | [] => some {}
  | arg :: rest =>
    if arg = ['-', '-'] then some { inputs := rest }
    else if isDashed arg then
      match option? specs arg with
      | none => none
      | some (spec, some value) => if spec.isFlag then none else (read? specs rest).map (·.addOption spec.name value)
      | some (spec, none) =>
        if spec.isFlag then (read? specs rest).map (·.addFlag spec.name)
        else match rest with
          | [] => none
          | value :: rest => if isDashed value then none else (read? specs rest).map (·.addOption spec.name value)
    else (read? specs rest).map (·.addInput arg)

/-- The reading of an option that may be left out but not repeated. -/
def value? {α : Type} (a : Arguments) (name : Text) (read : Text → Option α) : Option (Option α) :=
  match a.options.filter fun option => option.1 == name with
  | [] => some none
  | [option] => (read option.2).map some
  | _ => none

def flag? (a : Arguments) (name : Text) : Option Bool :=
  match a.flags.filter (· == name) with
  | [] => some false
  | [_] => some true
  | _ => none

def path? (s : Text) : Option Text := if s.isEmpty then none else some s

def input? (a : Arguments) : Option Text :=
  match a.inputs with
  | [input] => path? input
  | _ => none

end Arguments

end CommandLine

end RiscAsm
