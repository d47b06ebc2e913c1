import Mathlib

namespace RiscAsm

variable {ε δ α β : Type} {E : ε → δ → Prop}

/-- Two checks that both fail, with related faults, or both give related values. -/
inductive Related (E : ε → δ → Prop) (V : α → β → Prop) : Except ε α → Except δ β → Prop
  | ok {a : α} {b : β} (values : V a b) : Related E V (.ok a) (.ok b)
  | error {d : ε} {e : δ} (faults : E d e) : Related E V (.error d) (.error e)

namespace Related

theorem bind {γ η : Type} {V : α → β → Prop} {W : γ → η → Prop} {first : Except ε α} {second : Except δ β}
    {next : α → Except ε γ} {nextToo : β → Except δ η} (related : Related E V first second)
    (step : ∀ a b, V a b → Related E W (next a) (nextToo b)) : Related E W (first >>= next) (second >>= nextToo) := by
  cases related with
  | ok values => exact step _ _ values
  | error faults => exact .error faults

variable {R : α → β → Prop} {xs : List α} {ys : List β}

theorem mapM {γ η : Type} {V : γ → η → Prop} {f : α → Except ε γ} {g : β → Except δ η} (items : List.Forall₂ R xs ys)
    (each : ∀ x y, R x y → Related E V (f x) (g y)) : Related E (List.Forall₂ V) (xs.mapM f) (ys.mapM g) := by
  induction items with
  | nil => exact .ok .nil
  | cons first _ ih =>
    rw [List.mapM_cons, List.mapM_cons]
    exact (each _ _ first).bind fun _ _ values => ih.bind fun _ _ rest => .ok (.cons values rest)

/-- Steps that keep two states related keep them so along related lists, until both stop at related faults. -/
theorem foldlM {σ τ : Type} {S : σ → τ → Prop} {f : σ → α → Except ε σ} {g : τ → β → Except δ τ} {s : σ} {t : τ}
    (items : List.Forall₂ R xs ys) (step : ∀ s t x y, S s t → R x y → Related E S (f s x) (g t y)) (start : S s t) :
    Related E S (xs.foldlM f s) (ys.foldlM g t) := by
  induction items generalizing s t with
  | nil => exact .ok start
  | cons first _ ih =>
    rw [List.foldlM_cons, List.foldlM_cons]
    exact (step _ _ _ _ start first).bind fun _ _ states => ih states

end Related

end RiscAsm
