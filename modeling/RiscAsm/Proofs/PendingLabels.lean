import RiscAsm.Proofs.RepeatedLabels

namespace RiscAsm.Program

/-- Binds the waiting labels that an index has reached, and returns those that go on waiting. -/
def bindReached (index : Nat) (table : LabelTable) : List LabelDef → Except Diagnostic (LabelTable × List LabelDef)
  | [] => .ok (table, [])
  | d :: pending =>
    if d.index ≤ index then do
      let next ← table.define ⟨d.name, addressOf index, d.line⟩
      bindReached index next pending
    else .ok (table, d :: pending)

/-- Binds labels while the instructions pass by one after another, and those that still wait at the end of them. -/
def bindPassing (labels : List LabelDef) (count : Nat) : Except Diagnostic LabelTable := do
  let state ← (List.range' 0 count).foldlM (fun state index => bindReached index state.1 state.2)
    (⟨[], List.nodup_nil⟩, labels)
  state.2.foldlM (fun table d => table.define ⟨d.name, addressOf count, d.line⟩) state.1

variable {pending : List LabelDef} {index : Nat}

/-- Labels that an index reaches and that do not belong before it are bound to the address of that index. -/
theorem bindReached_eq (table : LabelTable) (waiting : ∀ d ∈ pending, index ≤ d.index) :
    bindReached index table pending = do
      let next ← (pending.takeWhile (·.index ≤ index)).foldlM (fun table d => table.define d.bound) table
      return (next, pending.dropWhile (·.index ≤ index)) := by
  induction pending generalizing table with
  | nil => rfl
  | cons d pending ih =>
    obtain ⟨lower, others⟩ := List.forall_mem_cons.mp waiting
    by_cases reached : d.index ≤ index
    · have here : d.index = index := by omega
      have bound : (⟨d.name, addressOf index, d.line⟩ : Label) = d.bound := by rw [← here]; rfl
      simp only [bindReached, reached, if_true, bound, List.takeWhile_cons, List.dropWhile_cons, decide_true,
        List.foldlM_cons, bind_assoc]
      exact bind_congr fun next => ih next others
    · simp only [bindReached, reached, if_false, List.takeWhile_cons, List.dropWhile_cons, decide_false]
      rfl

theorem foldlM_at_end (table : LabelTable) (waiting : ∀ d ∈ pending, d.index = index) :
    pending.foldlM (fun table d => table.define ⟨d.name, addressOf index, d.line⟩) table =
      pending.foldlM (fun table d => table.define d.bound) table := by
  induction pending generalizing table with
  | nil => rfl
  | cons d pending ih =>
    obtain ⟨here, others⟩ := List.forall_mem_cons.mp waiting
    subst here
    exact bind_congr fun next => ih next others

/-- The labels that go on waiting are those of the indices after this one. -/
theorem lt_of_mem_dropWhile (ordered : pending.Pairwise fun a b => a.index ≤ b.index) :
    ∀ d ∈ pending.dropWhile (·.index ≤ index), index < d.index := by
  induction ordered with
  | nil => simp
  | @cons first pending later _ ih =>
    by_cases reached : first.index ≤ index
    · simpa [List.dropWhile_cons, reached] using ih
    · intro d member
      simp only [List.dropWhile_cons, reached, decide_false] at member
      rcases List.mem_cons.mp member with rfl | after
      · omega
      · have := later d after
        omega

/-- Each label waits until the index of its definition is reached, so all are bound as if their definitions were
taken one after another. -/
theorem foldlM_bindReached (table : LabelTable) {start count : Nat}
    (ordered : pending.Pairwise fun a b => a.index ≤ b.index)
    (waiting : ∀ d ∈ pending, start ≤ d.index ∧ d.index ≤ start + count) :
    (do
      let state ← (List.range' start count).foldlM (fun state index => bindReached index state.1 state.2)
        (table, pending)
      state.2.foldlM (fun table d => table.define ⟨d.name, addressOf (start + count), d.line⟩) state.1) =
    pending.foldlM (fun table d => table.define d.bound) table := by
  induction count generalizing start table pending with
  | zero => exact foldlM_at_end table fun d member => Nat.le_antisymm (waiting d member).2 (waiting d member).1
  | succ count ih =>
    have split := List.takeWhile_append_dropWhile (p := fun d : LabelDef => decide (d.index ≤ start)) (l := pending)
    have later : ∀ d ∈ pending.dropWhile (·.index ≤ start), start + 1 ≤ d.index ∧ d.index ≤ start + 1 + count := by
      intro d member
      have after := lt_of_mem_dropWhile ordered d member
      have range := waiting d ((List.dropWhile_sublist _).subset member)
      omega
    have order := ordered.sublist (List.dropWhile_sublist fun d : LabelDef => decide (d.index ≤ start))
    have passed : start + (count + 1) = start + 1 + count := by omega
    conv_rhs => rw [← split, List.foldlM_append]
    rw [List.range'_succ, List.foldlM_cons, bindReached_eq table fun d member => (waiting d member).1, passed]
    simp only [bind_assoc, pure_bind]
    exact bind_congr fun next => ih next order later

/-- Labels in the order of their definitions are bound alike while the instructions pass by and one after another. -/
theorem bindPassing_eq {labels : List LabelDef} {count : Nat}
    (ordered : labels.Pairwise fun a b => a.index ≤ b.index) (bounded : ∀ d ∈ labels, d.index ≤ count) :
    bindPassing labels count = bindLabels labels := by
  have waiting : ∀ d ∈ labels, 0 ≤ d.index ∧ d.index ≤ 0 + count := fun d member => by simpa using bounded d member
  have all := foldlM_bindReached {} ordered waiting
  rw [Nat.zero_add] at all
  exact all

/-- The labels of an expanded source are bound while its instructions pass by. -/
theorem bindPassing_of_expanded {arch : Arch} {source : Text} {e : Expansion}
    (expanded : Expansion.ofSource arch source = .ok e) :
    bindPassing e.labels.toList e.instrs.size = bindLabels e.labels.toList := by
  obtain ⟨_, _, instrs, labels⟩ := Expansion.ofSource_eq_ok_iff.mp expanded
  rw [labels, ← Array.length_toList, instrs]
  refine bindPassing_eq ((LabelDef.pairwise_ofEffects 0 1 _).imp And.right) ?_
  intro d member
  obtain ⟨k, _, same⟩ := LabelDef.mem_ofEffects_iff_definesAt.mp member
  rw [same]
  exact LineEffect.sizeBefore_le _ k

end RiscAsm.Program
