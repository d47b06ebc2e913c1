import Mathlib

namespace RiscAsm

variable {ε α β : Type}

@[simp]
theorem bind_eq_ok {first : Except ε α} {second : α → Except ε β} {result : β} :
    (first >>= second) = .ok result ↔ ∃ value, first = .ok value ∧ second value = .ok result := by
  cases first with
  | error fault => simp [bind, Except.bind]
  | ok value => simp [bind, Except.bind]

theorem bind_eq_error {first : Except ε α} {second : α → Except ε β} {fault : ε} :
    (first >>= second) = .error fault ↔
      first = .error fault ∨ ∃ value, first = .ok value ∧ second value = .error fault := by
  cases first with
  | error other => simp [bind, Except.bind]
  | ok value => simp [bind, Except.bind]

@[simp]
theorem pure_eq_ok {value result : α} : (pure value : Except ε α) = .ok result ↔ value = result := by
  simp [pure, Except.pure]

@[simp]
theorem map_eq_ok {first : Except ε α} {convert : α → β} {result : β} :
    convert <$> first = .ok result ↔ ∃ value, first = .ok value ∧ convert value = result := by
  cases first with
  | error fault => simp [Functor.map, Except.map]
  | ok value => simp [Functor.map, Except.map]

@[simp]
theorem toOption_eq_some {checked : Except ε α} {value : α} : checked.toOption = some value ↔ checked = .ok value := by
  cases checked with
  | error fault => simp [Except.toOption]
  | ok other => simp [Except.toOption]

/-- The fault of a check that fails. -/
def rejection? : Except ε α → Option ε
  | .ok _ => none
  | .error fault => some fault

theorem rejection?_eq_some {checked : Except ε α} {fault : ε} :
    rejection? checked = some fault ↔ checked = .error fault := by
  cases checked <;> simp [rejection?]

/-- A checked list gives one result for each of its elements, in their order. -/
theorem mapM_eq_ok_iff {f : α → Except ε β} {l : List α} {results : List β} :
    l.mapM f = .ok results ↔ List.Forall₂ (fun a b => f a = .ok b) l results := by
  induction l generalizing results with
  | nil => cases results <;> simp
  | cons a l ih =>
    simp only [List.mapM_cons, bind_eq_ok, pure_eq_ok, ih]
    constructor
    · rintro ⟨b, ofHead, bs, ofTail, rfl⟩
      exact .cons ofHead ofTail
    · intro related
      cases related with
      | cons ofHead ofTail => exact ⟨_, ofHead, _, ofTail, rfl⟩

/-- Checking a list checks its parts one after another. -/
theorem forall₂_ok_append {f : α → Except ε β} {l others : List α} {results : List β} :
    List.Forall₂ (fun a b => f a = .ok b) (l ++ others) results ↔
      ∃ firsts, List.Forall₂ (fun a b => f a = .ok b) l firsts ∧
        ∃ rest, List.Forall₂ (fun a b => f a = .ok b) others rest ∧ firsts ++ rest = results := by
  simp only [← mapM_eq_ok_iff, List.mapM_append, bind_eq_ok, pure_eq_ok]

end RiscAsm
