import RiscAsm.Proofs.CheckedResults

namespace RiscAsm

variable {ε α β : Type}

/-- The first check that fails, and its fault. -/
structure FirstError (checks : List (Except ε α)) (k : Nat) (fault : ε) : Prop where
  here : checks[k]? = some (.error fault)
  before : ∀ i < k, ∃ result, checks[i]? = some (.ok result)

theorem firstError_nil {k : Nat} {fault : ε} : ¬ FirstError ([] : List (Except ε α)) k fault :=
  fun first => nomatch first.here

theorem exists_firstError_cons_ok {result : α} {checks : List (Except ε α)} {fault : ε} :
    (∃ k, FirstError (.ok result :: checks) k fault) ↔ ∃ k, FirstError checks k fault := by
  constructor
  · rintro ⟨k, here, before⟩
    cases k with
    | zero => cases here
    | succ k => exact ⟨k, here, fun i above => before (i + 1) (Nat.succ_lt_succ above)⟩
  · rintro ⟨k, here, before⟩
    refine ⟨k + 1, here, fun i above => ?_⟩
    cases i with
    | zero => exact ⟨result, rfl⟩
    | succ i => exact before i (Nat.lt_of_succ_lt_succ above)

theorem exists_firstError_cons_error {first : ε} {checks : List (Except ε α)} {fault : ε} :
    (∃ k, FirstError (.error first :: checks) k fault) ↔ first = fault := by
  constructor
  · rintro ⟨k, here, before⟩
    cases k with
    | zero => exact Except.error.inj (Option.some.inj here)
    | succ k =>
      obtain ⟨_, noError⟩ := before 0 (Nat.succ_pos k)
      cases noError
  · rintro rfl
    exact ⟨0, rfl, nofun⟩

/-- A checked list fails with the fault of the first element that fails. -/
theorem mapM_eq_error_iff {f : α → Except ε β} {l : List α} {fault : ε} :
    l.mapM f = .error fault ↔ ∃ k, FirstError (l.map f) k fault := by
  induction l with
  | nil => exact ⟨nofun, fun ⟨_, first⟩ => absurd first firstError_nil⟩
  | cons a l ih =>
    rw [List.mapM_cons, List.map_cons, bind_eq_error]
    cases f a with
    | error first => simp [exists_firstError_cons_error]
    | ok b => simp [exists_firstError_cons_ok, bind_eq_error, ih, pure, Except.pure]

/-- All faults of a check have a property. -/
def Raises (P : ε → Prop) (check : Except ε α) : Prop := ∀ fault, check = .error fault → P fault

namespace Raises

variable {P : ε → Prop}

@[simp]
theorem ok (result : α) : Raises P (.ok result) := nofun

@[simp]
theorem pure (result : α) : Raises P (Pure.pure result : Except ε α) := nofun

@[simp]
theorem error_iff {fault : ε} : Raises P (.error fault : Except ε α) ↔ P fault :=
  ⟨fun raises => raises fault rfl, fun holds _ same => Except.error.inj same ▸ holds⟩

@[simp]
theorem throw_iff {fault : ε} : Raises P (throw fault : Except ε α) ↔ P fault := error_iff

@[simp]
theorem bind_iff {first : Except ε α} {second : α → Except ε β} :
    Raises P (first >>= second) ↔ Raises P first ∧ ∀ result, first = .ok result → Raises P (second result) := by
  simp only [Raises, bind_eq_error]
  grind

end Raises

end RiscAsm
