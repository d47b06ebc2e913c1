import RiscAsm.Text

namespace RiscAsm

namespace CommandLine

inductive FileFault where
  | missing
  | notText
  deriving DecidableEq

def FileFault.message : FileFault → Text
  | missing => "No such file or directory (os error 2)".toList
  | notText => "stream did not contain valid UTF-8".toList

/-- The effects of a command: reading and writing whole files of text. -/
structure FileAccess (m : Type → Type) where
  read : Text → m (Except FileFault Text)
  write : Text → Text → m (Except FileFault Unit)

/-- The files of a directory by name. The content is missing for a file that is not text. -/
abbrev Directory := List (Text × Option Text)

namespace Directory

def content? (d : Directory) (name : Text) : Option (Option Text) :=
  (d.find? fun file => file.1 == name).map (·.2)

def read (d : Directory) (name : Text) : Except FileFault Text :=
  match d.content? name with
  | none => .error .missing
  | some none => .error .notText
  | some (some text) => .ok text

def put (d : Directory) (name text : Text) : Directory :=
  (name, some text) :: d.filter fun file => file.1 != name

/-- A name with a slash lies in a directory that does not exist. -/
def write (d : Directory) (name text : Text) : Except FileFault Directory :=
  if name.contains '/' then .error .missing else .ok (d.put name text)

/-- Reading and writing in a directory without directories inside. -/
def access : FileAccess (StateM Directory) where
  read name := do
    let d ← get
    return d.read name
  write name text := do
    let d ← get
    match d.write name text with
    | .ok d => do
      set d
      return .ok ()
    | .error fault => return .error fault

/-- The files of a directory that are new or changed since an earlier state. -/
def changes (before after : Directory) : List (Text × Text) :=
  after.filterMap fun file =>
    match file.2 with
    | some text => if before.content? file.1 = some (some text) then none else some (file.1, text)
    | none => none

end Directory

end CommandLine

end RiscAsm
