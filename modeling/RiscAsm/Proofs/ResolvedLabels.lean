import RiscAsm.Proofs.NumberedLines
import RiscAsm.Proofs.PendingLabels

namespace RiscAsm

open LineEffect

namespace Label

/-- Labels are listed by address and, at one address, by name, whose characters are compared by their codes. -/
def Before (a b : Label) : Prop :=
  a.address.toNat < b.address.toNat ∨
    a.address.toNat = b.address.toNat ∧ a.name.map Char.toNat < b.name.map Char.toNat

theorem lex_name_eq (a b : Text) :
    (a.lex b fun c d => c.toNat < d.toNat) = decide (a.map Char.toNat < b.map Char.toNat) := by
  induction a generalizing b with
  | nil => cases b <;> simp [List.lex]
  | cons c a ih =>
    cases b with
    | nil => simp [List.lex]
    | cons d b =>
      have codes : (c == d) = decide (c.toNat = d.toNat) := by simp [beq_eq_decide, Char.toNat_inj]
      simp [List.lex, ih, codes, List.cons_lt_cons_iff]

/-- The place of a label in the lexicographic order of addresses and names. -/
def key (label : Label) : ℕ ×ₗ List ℕ := toLex (label.address.toNat, label.name.map Char.toNat)

theorem before_iff_key {a b : Label} : Before a b ↔ a.key < b.key := by
  rw [key, key, Prod.Lex.toLex_lt_toLex]
  rfl

theorem precedes_eq (a b : Label) : LabelTable.precedes a b = decide (a.key < b.key) := by
  simp [LabelTable.precedes, lex_name_eq, ← before_iff_key, Before, beq_eq_decide]

theorem name_of_key {a b : Label} (same : a.key = b.key) : a.name = b.name :=
  List.map_injective_iff.mpr (fun _ _ => Char.toNat_inj.mp) (Prod.mk.inj (toLex.injective same)).2

end Label

namespace LabelTable

theorem mem_sorted {t : LabelTable} {label : Label} : label ∈ t.sorted ↔ label ∈ t.labels :=
  (List.mergeSort_perm _ _).mem_iff

theorem nodup_sorted (t : LabelTable) : (t.sorted.map Label.name).Nodup :=
  ((List.mergeSort_perm _ _).map Label.name).nodup_iff.mpr t.nodup

/-- The listed labels are strictly ordered, because no two of them have the same name. -/
theorem pairwise_sorted (t : LabelTable) : t.sorted.Pairwise Label.Before := by
  have notAfter : ∀ a b : Label, (!precedes b a) = true ↔ a.key ≤ b.key := by
    intro a b
    simp [Label.precedes_eq]
  have ordered : t.sorted.Pairwise fun a b => (!precedes b a) = true := by
    refine List.pairwise_mergeSort ?_ ?_ t.labels
    · intro a b c first second
      rw [notAfter] at *
      exact first.trans second
    · intro a b
      rw [Bool.or_eq_true, notAfter, notAfter]
      exact le_total a.key b.key
  refine (ordered.and (List.pairwise_map.mp t.nodup_sorted)).imp ?_
  rintro a b ⟨le, differ⟩
  exact Label.before_iff_key.mpr (((notAfter a b).mp le).lt_of_ne fun same => differ (Label.name_of_key same))

end LabelTable

namespace LineEffect

variable {effects : List LineEffect} {k : Nat}

/-- The instructions of a line stand after those of the lines before it. -/
theorem getElem?_flatMap_emitted {effect : LineEffect} {i : Nat} (atK : effects[k]? = some effect)
    (inside : i < effect.size) : (effects.flatMap emitted)[sizeBefore effects k + i]? = effect.emitted[i]? := by
  induction effects generalizing k with
  | nil => cases atK
  | cons first effects ih =>
    cases k with
    | zero =>
      cases Option.some.inj atK
      simp [sizeBefore, List.getElem?_append_left (show i < effect.emitted.length from inside)]
    | succ k =>
      rw [sizeBefore_cons_succ, List.flatMap_cons, List.getElem?_append_right (by simp only [size]; omega), ← ih atK]
      congr 1
      simp only [size]
      omega

/-- Lines that add nothing leave the count where it is. -/
theorem sizeBefore_of_rest (rest : ∀ l effect, k ≤ l → effects[l]? = some effect → effect.size = 0) :
    sizeBefore effects k = (effects.map size).sum := by
  have empty : ((effects.drop k).map size).sum = 0 := by
    refine List.sum_eq_zero fun n member => ?_
    obtain ⟨effect, later, rfl⟩ := List.mem_map.mp member
    obtain ⟨l, atL⟩ := List.getElem?_of_mem later
    rw [List.getElem?_drop] at atL
    exact rest _ effect (Nat.le_add_right k l) atL
  rw [sizeBefore, ← Nat.add_zero ((effects.take k).map size).sum, ← empty, ← List.sum_append, ← List.map_append,
    List.take_append_drop]

end LineEffect

namespace Program

/-- How the lines of a source lie in a program: their instructions stand one after another from address zero, and
each label leads to the first instruction that its line or one after it adds, or else to the end. -/
structure Resolves (p : Program) (effects : List LineEffect) : Prop where
  instrs_length : p.instrs.length = (effects.map size).sum
  words_length : ∀ words, p.encode = .ok words → words.length = (effects.map size).sum
  address : ∀ i instr, p.instrs[i]? = some instr → instr.address.toNat = 4 * i
  instrs : p.instrs.map PlacedInstr.toInstr = effects.flatMap emitted
  placed : ∀ k effect i, effects[k]? = some effect → i < effect.size → ∃ instr,
    p.instrs[sizeBefore effects k + i]? = some instr ∧ effect.emitted[i]? = some instr.toInstr ∧ instr.line = k + 1
  label : ∀ k name, DefinesAt effects k name → ∃ address, p.labels.address? name = some address ∧
    address.toNat = 4 * sizeBefore effects k
  label_at_end : ∀ k name, DefinesAt effects k name →
    (∀ l effect, k ≤ l → effects[l]? = some effect → effect.size = 0) → p.labels.address? name = some p.endAddress
  sorted : p.labels.sorted.Pairwise Label.Before
  mem_sorted : ∀ label, label ∈ p.labels.sorted ↔
    ∃ k name, DefinesAt effects k name ∧ label = ⟨name, addressOf (sizeBefore effects k), k + 1⟩
  listed_once : (p.labels.sorted.map Label.name).Nodup

variable {arch : Arch} {source : Text} {e : Expansion} {p : Program}

theorem map_place (instrs : List Instr) : (place instrs).map PlacedInstr.toInstr = instrs := by
  refine List.ext_getElem? fun i => ?_
  rw [List.getElem?_map, place_getElem?, Option.map_map]
  exact Option.map_id'

theorem words_length_of_encode {words : List Word} (encoded : p.encode = .ok words) :
    words.length = p.instrs.length := by
  unfold encode at encoded
  exact (mapM_eq_ok_iff.mp encoded).length_eq.symm

theorem instrs_of_ofExpansion (expanded : Expansion.ofSource arch source = .ok e) (resolved : ofExpansion e = .ok p) :
    p.instrs = place ((LineEffect.ofSource arch source).flatMap emitted) ∧
      p.labels.labels = ((LabelDef.ofEffects 0 1 (LineEffect.ofSource arch source)).map LabelDef.bound).reverse := by
  obtain ⟨_, _, instrs, labels⟩ := Expansion.ofSource_eq_ok_iff.mp expanded
  obtain ⟨table, bound, whole⟩ := bind_eq_ok.mp resolved
  cases whole
  rw [← instrs, ← labels]
  exact ⟨rfl, bindLabels_eq_ok_iff.mp bound⟩

theorem mem_labels_iff (expanded : Expansion.ofSource arch source = .ok e) (resolved : ofExpansion e = .ok p)
    {label : Label} :
    label ∈ p.labels.labels ↔ ∃ k name, DefinesAt (LineEffect.ofSource arch source) k name ∧
      label = ⟨name, addressOf (sizeBefore (LineEffect.ofSource arch source) k), k + 1⟩ := by
  rw [(instrs_of_ofExpansion expanded resolved).2, List.mem_reverse, List.mem_map]
  constructor
  · rintro ⟨d, inDefs, rfl⟩
    obtain ⟨k, defined, same⟩ := LabelDef.mem_ofEffects_iff_definesAt.mp inDefs
    refine ⟨k, d.name, defined, ?_⟩
    rw [same]
    rfl
  · rintro ⟨k, name, defined, rfl⟩
    exact ⟨_, LabelDef.mem_of_definesAt defined, rfl⟩

theorem address?_of_definesAt (expanded : Expansion.ofSource arch source = .ok e) (resolved : ofExpansion e = .ok p)
    {k : Nat} {name : Text} (defined : DefinesAt (LineEffect.ofSource arch source) k name) :
    p.labels.address? name = some (addressOf (sizeBefore (LineEffect.ofSource arch source) k)) := by
  have found := LabelTable.find?_eq_some_iff.mpr ⟨(mem_labels_iff expanded resolved).mpr ⟨k, name, defined, rfl⟩, rfl⟩
  simp [LabelTable.address?, found]

theorem resolves_of_ofExpansion (expanded : Expansion.ofSource arch source = .ok e) (small : e.instrs.size < 2 ^ 30)
    (resolved : ofExpansion e = .ok p) : p.Resolves (LineEffect.ofSource arch source) := by
  obtain ⟨_, _, ofInstrs, _⟩ := Expansion.ofSource_eq_ok_iff.mp expanded
  have instrs := (instrs_of_ofExpansion expanded resolved).1
  have length : p.instrs.length = ((LineEffect.ofSource arch source).map size).sum := by
    rw [instrs, place_length, length_flatMap_emitted]
  rw [← Array.length_toList, ofInstrs, length_flatMap_emitted] at small
  constructor
  case instrs_length => exact length
  case words_length =>
    intro words encoded
    rw [words_length_of_encode encoded, length]
  case address =>
    intro i instr atIndex
    have inside := (List.getElem?_eq_some_iff.mp atIndex).1
    rw [instrs, place_getElem?] at atIndex
    obtain ⟨_, _, rfl⟩ := Option.map_eq_some_iff.mp atIndex
    exact toNat_addressOf (by omega)
  case instrs => rw [instrs, map_place]
  case placed =>
    intro k effect i atK inside
    have atIndex := getElem?_flatMap_emitted atK inside
    rw [List.getElem?_eq_getElem (show i < effect.emitted.length from inside)] at atIndex
    refine ⟨{ effect.emitted[i] with address := addressOf (sizeBefore (LineEffect.ofSource arch source) k + i) },
      ?_, List.getElem?_eq_getElem inside, line_of_mem_ofSource atK (List.getElem_mem inside)⟩
    rw [instrs, place_getElem?, atIndex]
    rfl
  case label =>
    intro k name defined
    have before := sizeBefore_le (LineEffect.ofSource arch source) k
    rw [length_flatMap_emitted] at before
    exact ⟨_, address?_of_definesAt expanded resolved defined, toNat_addressOf (by omega)⟩
  case label_at_end =>
    intro k name defined rest
    rw [address?_of_definesAt expanded resolved defined, sizeBefore_of_rest rest, ← length]
    rfl
  case sorted => exact p.labels.pairwise_sorted
  case mem_sorted => exact fun label => LabelTable.mem_sorted.trans (mem_labels_iff expanded resolved)
  case listed_once => exact p.labels.nodup_sorted

/-- Labels are resolved if no two lines define the same name, even where both would have the same address. Then all
instructions and labels lie where the sizes of the lines put them; otherwise the earliest line that repeats a name is
at fault and the first definition of this name is reported with it. This is what comes of binding labels while the
instructions pass by. -/
theorem ofExpansion_resolves (expanded : Expansion.ofSource arch source = .ok e) (small : e.instrs.size < 2 ^ 30) :
    bindPassing e.labels.toList e.instrs.size = bindLabels e.labels.toList ∧
    ((∃ p, ofExpansion e = .ok p) ↔ Distinct (LineEffect.ofSource arch source)) ∧
    (∀ p, ofExpansion e = .ok p → p.Resolves (LineEffect.ofSource arch source)) ∧
    (¬ Distinct (LineEffect.ofSource arch source) → ∃ i k name,
      FirstRepeat (LineEffect.ofSource arch source) i k name ∧
      ofExpansion e = .error ⟨k + 1, name ++ [':'], [], .duplicateLabel name (i + 1)⟩) := by
  refine ⟨bindPassing_of_expanded expanded, ⟨?_, ?_⟩, ?_, ofExpansion_of_not_distinct expanded⟩
  · rintro ⟨p, resolved⟩
    by_contra repeats
    obtain ⟨i, k, name, _, failed⟩ := ofExpansion_of_not_distinct expanded repeats
    rw [resolved] at failed
    cases failed
  · intro distinct
    obtain ⟨table, resolved, _⟩ := ofExpansion_of_distinct expanded distinct
    exact ⟨_, resolved⟩
  · exact fun p resolved => resolves_of_ofExpansion expanded small resolved

/-- Two labels at the end, after a constant that takes two instructions. -/
theorem ofExpansion_resolves_end :
    ∃ e p, Expansion.ofSource .mips "li $t0, 70000\nb:\na:".toList = .ok e ∧ e.instrs.size < 2 ^ 30 ∧
      ofExpansion e = .ok p ∧ p.labels.labels = [⟨"a".toList, 8#32, 3⟩, ⟨"b".toList, 8#32, 2⟩] ∧
      p.Resolves (LineEffect.ofSource .mips "li $t0, 70000\nb:\na:".toList) := by
  have evaluated : (Expansion.ofSource .mips "li $t0, 70000\nb:\na:".toList).toOption.bind (fun e =>
      (ofExpansion e).toOption.map fun p => (e.instrs.size, p.labels.labels)) =
      some (2, [⟨"a".toList, 8#32, 3⟩, ⟨"b".toList, 8#32, 2⟩]) := by decide +kernel
  obtain ⟨e, ofExpanded, found⟩ := Option.bind_eq_some_iff.mp evaluated
  obtain ⟨p, ofResolved, same⟩ := Option.map_eq_some_iff.mp found
  obtain ⟨size, labels⟩ := Prod.mk.inj same
  have expanded := toOption_eq_some.mp ofExpanded
  have resolved := toOption_eq_some.mp ofResolved
  have small : e.instrs.size < 2 ^ 30 := by rw [size]; decide
  exact ⟨e, p, expanded, small, resolved, labels, (ofExpansion_resolves expanded small).2.2.1 p resolved⟩

end Program

end RiscAsm
