import RiscAsm.Arch
import RiscAsm.Json.Read
import RiscAsm.Json.Write

namespace RiscAsm

structure Settings where
  arch : Arch := .mips
  comment : Bool := true
  deriving DecidableEq

namespace Settings

def archName : Text := "arch".toList
def commentName : Text := "coe_comment".toList

/-- An instruction set is named by a string, or by an object whose one member has the value null. -/
def readArch? : Json → Option Arch
  | .string (some name) => Arch.ofKeyword? name
  | .object [(some name, .null)] => Arch.ofKeyword? name
  | _ => none

def readComment? : Json → Option Bool
  | .bool value => some value
  | _ => none

/-- A missing member keeps its default; a repeated one is refused. -/
def member? {α : Type} (name : Text) (read : Json → Option α) (default : α)
    (members : List (Option Text × Json)) : Option α :=
  match members.filter fun member => member.1 == some name with
  | [] => some default
  | [member] => read member.2
  | _ => none

/-- Settings are an object, in which other members are ignored, or a list of at most two values in
the order of the fields. -/
def ofJson? : Json → Option Settings
  | .object members =>
    if members.all fun member => member.1.isSome then do
      let arch ← member? archName readArch? .mips members
      let comment ← member? commentName readComment? true members
      return { arch, comment }
    else none
  | .array [] => some {}
  | .array [arch] => do
    let arch ← readArch? arch
    return { arch }
  | .array [arch, comment] => do
    let arch ← readArch? arch
    let comment ← readComment? comment
    return { arch, comment }
  | _ => none

def read? (s : Text) : Option Settings := (Json.read? s).bind ofJson?

def text (s : Settings) : Text :=
  Json.compact
    [(archName, Json.quoted s.arch.keyword), (commentName, if s.comment then "true".toList else "false".toList)]

end Settings

end RiscAsm
