import RiscAsm.Proofs.ReachedLabels

namespace RiscAsm

open LineEffect

namespace LineEffect

/-- No two lines define the same name. -/
def Distinct (effects : List LineEffect) : Prop :=
  ∀ i k name, DefinesAt effects i name → DefinesAt effects k name → i = k

/-- Line `k` is the earliest that repeats a name, and line `i` is the first that defines this name. -/
structure FirstRepeat (effects : List LineEffect) (i k : Nat) (name : Text) : Prop where
  before : i < k
  first : DefinesAt effects i name
  again : DefinesAt effects k name
  fresh : ∀ l < i, ¬ DefinesAt effects l name
  earliest : ∀ l < k, ∀ other, DefinesAt effects l other → ∀ m < l, ¬ DefinesAt effects m other

theorem FirstRepeat.not_distinct {effects : List LineEffect} {i k : Nat} {name : Text}
    (repeated : FirstRepeat effects i k name) : ¬ Distinct effects :=
  fun distinct => repeated.before.ne (distinct i k name repeated.first repeated.again)

end LineEffect

namespace LabelDef

/-- The label definitions of lines follow the lines, and the instructions before them only grow. -/
theorem pairwise_ofEffects (index line : Nat) (effects : List LineEffect) :
    (ofEffects index line effects).Pairwise fun a b => a.line < b.line ∧ a.index ≤ b.index := by
  induction effects generalizing index line with
  | nil => exact .nil
  | cons effect effects ih =>
    refine List.pairwise_append.mpr ⟨?_, ih _ _, ?_⟩
    · cases effect.label <;> simp
    · intro a here b later
      obtain ⟨name, _, rfl⟩ := Option.map_eq_some_iff.mp (Option.mem_toList.mp here)
      obtain ⟨k, _, _, _, ofLine, ofIndex⟩ := mem_ofEffects.mp later
      simp only [ofLine, ofIndex]
      omega

variable {effects : List LineEffect} {d : LabelDef}

theorem mem_ofEffects_iff_definesAt :
    d ∈ ofEffects 0 1 effects ↔ ∃ k, DefinesAt effects k d.name ∧ d = ⟨d.name, sizeBefore effects k, k + 1⟩ := by
  rw [mem_ofEffects]
  constructor
  · rintro ⟨k, effect, atK, labelled, ofLine, ofIndex⟩
    refine ⟨k, Option.bind_eq_some_iff.mpr ⟨effect, atK, labelled⟩, ?_⟩
    rw [Nat.zero_add] at ofIndex
    rw [Nat.add_comm] at ofLine
    rw [← ofIndex, ← ofLine]
  · rintro ⟨k, defined, same⟩
    obtain ⟨effect, atK, labelled⟩ := Option.bind_eq_some_iff.mp defined
    exact ⟨k, effect, atK, labelled, by rw [same, Nat.add_comm], by rw [same, Nat.zero_add]⟩

theorem mem_of_definesAt {k : Nat} {name : Text} (defined : DefinesAt effects k name) :
    ⟨name, sizeBefore effects k, k + 1⟩ ∈ ofEffects 0 1 effects :=
  mem_ofEffects_iff_definesAt.mpr ⟨k, defined, rfl⟩

theorem nodup_iff_distinct : ((ofEffects 0 1 effects).map name).Nodup ↔ Distinct effects := by
  constructor
  · intro nodup i k name first again
    have same := List.inj_on_of_nodup_map nodup (mem_of_definesAt first) (mem_of_definesAt again) rfl
    exact Nat.succ.inj (congrArg LabelDef.line same)
  · intro distinct
    refine List.pairwise_map.mpr ((pairwise_ofEffects 0 1 effects).imp_of_mem ?_)
    rintro a b inDefs inDefs' ⟨earlier, _⟩ same
    obtain ⟨i, first, ofA⟩ := mem_ofEffects_iff_definesAt.mp inDefs
    obtain ⟨k, again, ofB⟩ := mem_ofEffects_iff_definesAt.mp inDefs'
    have line := distinct i k b.name (same ▸ first) again
    rw [ofA, ofB, line] at earlier
    exact Nat.lt_irrefl _ earlier

/-- The definitions before one that repeats a name are those of the lines before it. -/
theorem firstRepeat_of_split {before after : List LabelDef} {first again : LabelDef}
    (split : ofEffects 0 1 effects = before ++ again :: after) (nodup : (before.map name).Nodup)
    (member : first ∈ before) (same : first.name = again.name) :
    ∃ i k, FirstRepeat effects i k again.name ∧ first.line = i + 1 ∧ again.line = k + 1 := by
  have lines := pairwise_ofEffects 0 1 effects
  rw [split, List.pairwise_append] at lines
  obtain ⟨_, later, earlier⟩ := lines
  have whole : ∀ d ∈ before, d ∈ ofEffects 0 1 effects := fun d inside => split ▸ List.mem_append_left _ inside
  obtain ⟨i, ofFirst, atFirst⟩ := mem_ofEffects_iff_definesAt.mp (whole first member)
  obtain ⟨k, ofAgain, atAgain⟩ : ∃ k, DefinesAt effects k again.name ∧ again = ⟨again.name, _, k + 1⟩ :=
    mem_ofEffects_iff_definesAt.mp (split ▸ List.mem_append_right _ List.mem_cons_self)
  have line : again.line = k + 1 := congrArg LabelDef.line atAgain
  have firstLine : first.line = i + 1 := congrArg LabelDef.line atFirst
  -- A definition on an earlier line stands before the repeating one.
  have inBefore : ∀ l name, l < k → DefinesAt effects l name → ⟨name, sizeBefore effects l, l + 1⟩ ∈ before := by
    intro l name above defined
    have inDefs := mem_of_definesAt defined
    rw [split, List.mem_append, List.mem_cons] at inDefs
    rcases inDefs with inside | rfl | below
    · exact inside
    · exact absurd line (by simp; omega)
    · have order := (List.rel_of_pairwise_cons later below).1
      simp only [line] at order
      omega
  have before : i < k := by
    have order := (earlier first member again List.mem_cons_self).1
    omega
  have unique : ∀ l m name, l < k → m < k → DefinesAt effects l name → DefinesAt effects m name → l = m := by
    intro l m name above above' defined defined'
    have equal := List.inj_on_of_nodup_map nodup (inBefore l name above defined) (inBefore m name above' defined') rfl
    exact Nat.succ.inj (congrArg LabelDef.line equal)
  refine ⟨i, k, ⟨before, same ▸ ofFirst, ofAgain, ?_, ?_⟩, firstLine, line⟩
  · intro l above defined
    exact above.ne (unique l i _ (above.trans before) before defined (same ▸ ofFirst))
  · intro l above other defined m aboveToo defined'
    exact aboveToo.ne (unique m l other (aboveToo.trans above) above defined' defined)

end LabelDef

/-- In a list whose items do not all have different values, one item is the first to repeat a value. -/
theorem exists_split_of_not_nodup {α β : Type} {f : α → β} {l : List α} (repeats : ¬ (l.map f).Nodup) :
    ∃ before again after first, l = before ++ again :: after ∧ (before.map f).Nodup ∧ first ∈ before ∧
      f first = f again := by
  induction l using List.reverseRecOn with
  | nil => exact absurd List.nodup_nil repeats
  | append_singleton init last ih =>
    by_cases nodup : (init.map f).Nodup
    · have present : f last ∈ init.map f := by
        by_contra absent
        rw [List.map_append] at repeats
        exact repeats (List.nodup_append.mpr ⟨nodup, by simp, by
          rintro value inside _ alone rfl
          cases List.mem_singleton.mp alone
          exact absent inside⟩)
      obtain ⟨first, member, same⟩ := List.mem_map.mp present
      exact ⟨init, last, [], first, rfl, nodup, member, same⟩
    · obtain ⟨before, again, after, first, rfl, nodup, member, same⟩ := ih nodup
      exact ⟨before, again, after ++ [last], first, by simp, nodup, member, same⟩

namespace Program

theorem bindLabels_of_nodup {defs : List LabelDef} (nodup : (defs.map LabelDef.name).Nodup) :
    ∃ table, bindLabels defs = .ok table ∧ table.labels = (defs.map LabelDef.bound).reverse := by
  have names : (((defs.map LabelDef.bound).reverse).map Label.name).Nodup := by
    rw [List.map_reverse, List.nodup_reverse, List.map_map]
    exact nodup
  exact ⟨⟨_, names⟩, bindLabels_eq_ok_iff.mpr rfl, rfl⟩

theorem bindLabels_of_split {before after : List LabelDef} {first again : LabelDef}
    (nodup : (before.map LabelDef.name).Nodup) (member : first ∈ before) (same : first.name = again.name) :
    bindLabels (before ++ again :: after) =
      .error ⟨again.line, again.name ++ [':'], [], .duplicateLabel again.name first.line⟩ := by
  obtain ⟨table, bound, labels⟩ := bindLabels_of_nodup nodup
  have found : table.find? again.name = some first.bound := by
    rw [LabelTable.find?_eq_some_iff, labels, List.mem_reverse]
    exact ⟨List.mem_map_of_mem member, same⟩
  have refused := @LabelTable.define_of_found table again.bound first.bound found
  unfold bindLabels at bound ⊢
  rw [List.foldlM_append, bound]
  change (table.define again.bound >>= fun next => after.foldlM _ next) = _
  rw [refused]
  rfl

variable {arch : Arch} {source : Text} {e : Expansion}

/-- The labels of an expanded source are bound if no name is repeated. -/
theorem ofExpansion_of_distinct (expanded : Expansion.ofSource arch source = .ok e)
    (distinct : Distinct (LineEffect.ofSource arch source)) :
    ∃ table : LabelTable, ofExpansion e = .ok ⟨arch, place e.instrs.toList, table⟩ ∧
      table.labels = ((LabelDef.ofEffects 0 1 (LineEffect.ofSource arch source)).map LabelDef.bound).reverse := by
  obtain ⟨_, rfl, _, labels⟩ := Expansion.ofSource_eq_ok_iff.mp expanded
  obtain ⟨table, bound, ofTable⟩ := bindLabels_of_nodup (LabelDef.nodup_iff_distinct.mpr distinct)
  refine ⟨table, ?_, ofTable⟩
  unfold ofExpansion
  rw [labels, bound]
  rfl

/-- If a name is repeated, the earliest line that does so is at fault. -/
theorem ofExpansion_of_not_distinct (expanded : Expansion.ofSource arch source = .ok e)
    (repeats : ¬ Distinct (LineEffect.ofSource arch source)) :
    ∃ i k name, FirstRepeat (LineEffect.ofSource arch source) i k name ∧
      ofExpansion e = .error ⟨k + 1, name ++ [':'], [], .duplicateLabel name (i + 1)⟩ := by
  obtain ⟨_, _, _, labels⟩ := Expansion.ofSource_eq_ok_iff.mp expanded
  rw [← LabelDef.nodup_iff_distinct] at repeats
  obtain ⟨before, again, after, first, split, nodup, member, same⟩ := exists_split_of_not_nodup repeats
  obtain ⟨i, k, repeated, firstLine, line⟩ := LabelDef.firstRepeat_of_split split nodup member same
  refine ⟨i, k, again.name, repeated, ?_⟩
  unfold ofExpansion
  rw [labels, split, bindLabels_of_split nodup member same, firstLine, line]
  rfl

end Program

end RiscAsm
