import RiscAsm.Proofs.RelocatedSources
import RiscAsm.Proofs.ResolvedLabels

namespace RiscAsm

/-- The name and address of a label, wherever it was defined. -/
def Label.binding (label : Label) : Text × Word := (label.name, label.address)

namespace LabelTable

variable {t other : LabelTable}

theorem address?_eq_some_iff {name : Text} {address : Word} :
    t.address? name = some address ↔ (name, address) ∈ t.labels.map Label.binding := by
  unfold address?
  rw [Option.map_eq_some_iff, List.mem_map]
  simp only [find?_eq_some_iff, Label.binding, Prod.mk.injEq, and_assoc]

/-- Tables of the same names and addresses, in whatever order. -/
def SameBindings (t other : LabelTable) : Prop := (t.labels.map Label.binding).Perm (other.labels.map Label.binding)

theorem SameBindings.address?_eq (same : t.SameBindings other) (name : Text) : t.address? name = other.address? name :=
  Option.ext fun _ => address?_eq_some_iff.trans (same.mem_iff.trans address?_eq_some_iff.symm)

/-- The order in which labels are written out, by address and then by name. -/
def EntryBefore (a b : Text × Nat) : Prop := a.2 < b.2 ∨ a.2 = b.2 ∧ a.1.map Char.toNat < b.1.map Char.toNat

theorem not_entryBefore_of_entryBefore {a b : Text × Nat} (before : EntryBefore a b) : ¬ EntryBefore b a := by
  rintro (above | ⟨same, name⟩)
  · rcases before with below | ⟨same, _⟩ <;> omega
  · rcases before with below | ⟨_, nameToo⟩
    · omega
    · exact lt_asymm name nameToo

theorem pairwise_entries (t : LabelTable) : (t.sorted.map Label.entry).Pairwise EntryBefore :=
  List.pairwise_map.mpr t.pairwise_sorted

/-- The written table depends on nothing but the names and addresses. -/
theorem SameBindings.entries_eq (same : t.SameBindings other) :
    t.sorted.map Label.entry = other.sorted.map Label.entry := by
  have ofBinding : Label.entry = (fun p : Text × Word => (p.1, p.2.toNat)) ∘ Label.binding := rfl
  have perm : (t.sorted.map Label.entry).Perm (other.sorted.map Label.entry) := by
    have labels := same.map fun p => (p.1, p.2.toNat)
    rw [List.map_map, List.map_map, ← ofBinding] at labels
    exact ((List.mergeSort_perm _ _).map _).trans (labels.trans ((List.mergeSort_perm _ _).map _).symm)
  refine perm.eq_of_pairwise ?_ t.pairwise_entries other.pairwise_entries
  exact fun a b _ _ before after => absurd after (not_entryBefore_of_entryBefore before)

end LabelTable

end RiscAsm
