import RiscAsm.CommandLine.Outcome

namespace RiscAsm

namespace CommandLine

section

variable {σ α β : Type}

/-- The result of a command that starts in a state, and the state that it leaves. -/
def runFrom (before : σ) (command : ExceptT Failure (StateM σ) α) : Except Failure α × σ := command.run.run before

@[simp]
theorem runFrom_pure (before : σ) (value : α) : runFrom before (pure value) = (.ok value, before) := rfl

end

namespace FileAccess

variable {σ : Type}

variable {files : FileAccess (StateM σ)} {content : σ → Text → Option (Option Text)} {before after : σ}
  {name text : Text} {rest writes : List (Text × Text)}

end FileAccess

namespace Directory

end Directory

end CommandLine

end RiscAsm
