import RiscAsm.Proofs.GroupedLabels
import RiscAsm.Proofs.LiteralGrammar

namespace RiscAsm

open Text

/-- The names that lead to an address, each once and in the order of the codes of their characters. -/
structure LabelTable.NamesAt (t : LabelTable) (address : Word) (names : List Text) : Prop where
  ordered : names.Pairwise fun a b => a.map Char.toNat < b.map Char.toNat
  mem : ∀ name, name ∈ names ↔ t.address? name = some address

/-- The eight hexadecimal digits of a word. -/
structure IsHex8 (digits : Text) (n : Nat) : Prop where
  length : digits.length = 8
  spells : Numeral.Spells digits n

/-- A line that is listed for the word at an address. -/
def StartsAt (n : Nat) (line : Text) : Prop := ∃ digits rest, IsHex8 digits n ∧ line = digits ++ ": ".toList ++ rest

/-- What is told of the pseudo instruction that an instruction came from. -/
def originNote : Option Pseudo → Text
  | some pseudo => " (from ".toList ++ pseudo.mnemonic ++ [')']
  | none => []

/-- The line of an instruction tells its address, its word, its statement, the line of the source that it came from and
the pseudo instruction there, if it is one. -/
def PlacedInstr.ShownBy (instr : PlacedInstr) (word : Word) (line : Text) : Prop :=
  ∃ address digits padding, IsHex8 address instr.address.toNat ∧ IsHex8 digits word.toNat ∧ (∀ c ∈ padding, c = ' ') ∧
    line = address ++ ": ".toList ++ (digits ++ "  ".toList ++ Statement.text ⟨instr.mnemonic, instr.operands⟩ ++
      padding ++ " ; line ".toList ++ Numeral.decimal instr.line ++ originNote instr.origin)

/-- Lines that show instructions with their words one after another. The labels of an address stand right before its
instruction, and those of the end come last. -/
inductive Listed (t : LabelTable) (last : Word) : List (PlacedInstr × Word) → List Text → Prop
  | last {names} : t.NamesAt last names → Listed t last [] (names.map (· ++ [':']))
  | next {instr word names line placed lines} : t.NamesAt instr.address names → instr.ShownBy word line →
      Listed t last placed lines →
      Listed t last ((instr, word) :: placed) (names.map (· ++ [':']) ++ line :: lines)

namespace PlacedInstr

variable {instr : PlacedInstr} {word : Word} {line : Text}

theorem ShownBy.oneLine (shown : instr.ShownBy word line)
    (written : '\n' ∉ Statement.text ⟨instr.mnemonic, instr.operands⟩) : '\n' ∉ line := by
  obtain ⟨address, digits, padding, ofAddress, ofWord, blank, rfl⟩ := shown
  have plain : ∀ {s}, Plain s → '\n' ∉ s := fun whole member => (isPlain_iff.mp (whole.2 '\n' member)).1 (by decide)
  have inPadding : '\n' ∉ padding := fun member => absurd (blank '\n' member) (by decide)
  have inNote : '\n' ∉ originNote instr.origin := by
    cases instr.origin with
    | none => exact List.not_mem_nil
    | some pseudo => cases pseudo <;> decide
  simp [plain ofAddress.spells.plain, plain ofWord.spells.plain, written, inPadding, inNote,
    plain (Numeral.plain_decimal instr.line)]

end PlacedInstr

/-- A line tells one address only. -/
theorem StartsAt.unique {n m : Nat} {line : Text} (first : StartsAt n line) (second : StartsAt m line) : n = m := by
  obtain ⟨digits, rest, ofN, rfl⟩ := first
  obtain ⟨others, more, ofM, same⟩ := second
  rw [List.append_assoc, List.append_assoc] at same
  obtain ⟨rfl, _⟩ := List.append_inj same (ofN.length.trans ofM.length.symm)
  exact ofN.spells.unique ofM.spells

namespace LabelTable

variable {t : LabelTable} {address : Word} {names : List Text}

theorem NamesAt.nodup (bound : t.NamesAt address names) : names.Nodup :=
  bound.ordered.imp fun lt => by rintro rfl; exact lt_irrefl _ lt

theorem NamesAt.count (bound : t.NamesAt address names) {name : Text} {other : Word}
    (leads : t.address? name = some other) :
    (names.map (· ++ [':'])).count (name ++ [':']) = if address == other then 1 else 0 := by
  have injective : Function.Injective fun name : Text => name ++ [':'] := fun _ _ => List.append_cancel_right
  have here : name ∈ names ↔ address = other := by rw [bound.mem, leads, Option.some.injEq, eq_comm]
  rw [List.count_map_of_injective names (fun name => name ++ [':']) injective, bound.nodup.count]
  simp [here]

theorem NamesAt.isIdentifier (bound : t.NamesAt address names) (named : t.Named) {line : Text}
    (member : line ∈ names.map (· ++ [':'])) : ∃ name, RiscAsm.isIdentifier name ∧ line = name ++ [':'] := by
  obtain ⟨name, inNames, rfl⟩ := List.mem_map.mp member
  obtain ⟨label, found, _⟩ := Option.map_eq_some_iff.mp ((bound.mem name).mp inNames)
  exact ⟨name, named.isIdentifier_of_find? found, rfl⟩

theorem mem_names_iff {labels : List Label} (same : ∀ label, label ∈ labels ↔ label ∈ t.labels) (name : Text) :
    name ∈ (labels.filter fun label => label.address == address).map Label.name ↔ t.address? name = some address := by
  rw [address?_eq_some_iff, List.mem_map, List.mem_map]
  constructor
  · rintro ⟨label, kept, rfl⟩
    obtain ⟨member, here⟩ := List.mem_filter.mp kept
    exact ⟨label, (same label).mp member, by rw [Label.binding, beq_iff_eq.mp here]⟩
  · rintro ⟨label, member, binding⟩
    cases binding
    exact ⟨label, List.mem_filter.mpr ⟨(same label).mpr member, beq_self_eq_true _⟩, rfl⟩

theorem NamesAt.length (bound : t.NamesAt address names) :
    names.length = t.labels.countP fun label => label.address == address := by
  have perm : names.Perm ((t.labels.filter fun label => label.address == address).map Label.name) := by
    refine (List.perm_ext_iff_of_nodup bound.nodup (t.nodup.sublist (List.filter_sublist.map _))).mpr fun name => ?_
    rw [bound.mem, mem_names_iff fun _ => Iff.rfl]
  rw [perm.length_eq, List.length_map, List.countP_eq_length_filter]

end LabelTable

namespace Listed

variable {t : LabelTable} {last : Word} {placed first : List (PlacedInstr × Word)} {lines : List Text}

theorem countP_address_cons {address : Word} {addresses : List Word} (absent : address ∉ addresses)
    (labels : List Label) :
    labels.countP (fun label => label.address ∈ address :: addresses) =
      labels.countP (fun label => label.address == address) + labels.countP fun label => label.address ∈ addresses := by
  induction labels with
  | nil => rfl
  | cons label labels ih =>
    rw [List.countP_cons, List.countP_cons, List.countP_cons, ih]
    by_cases here : label.address = address
    · simp [here, absent]
      omega
    · simp [here]
      omega

/-- There is a line for each instruction and for each label that is bound to one of them or to the end. -/
theorem length (listed : Listed t last placed lines) (nodup : (placed.map (·.1.address) ++ [last]).Nodup) :
    lines.length = placed.length + t.labels.countP fun label => label.address ∈ placed.map (·.1.address) ++ [last] := by
  induction listed with
  | last bound => simp [bound.length, beq_eq_decide]
  | @next instr word names line placed lines bound _ _ ih =>
    rw [List.map_cons, List.cons_append, List.nodup_cons] at nodup
    rw [List.map_cons, List.cons_append, countP_address_cons nodup.1 t.labels, List.length_append, List.length_map,
      List.length_cons, List.length_cons, ih nodup.2, bound.length]
    dsimp only
    omega

/-- No line of a listing has a line feed in it. -/
theorem oneLine (listed : Listed t last placed lines) (named : t.Named)
    (written : ∀ p ∈ placed, '\n' ∉ Statement.text ⟨p.1.mnemonic, p.1.operands⟩) : ∀ line ∈ lines, '\n' ∉ line := by
  have label : ∀ {address names}, t.NamesAt address names → ∀ line ∈ names.map (· ++ [':']), '\n' ∉ line := by
    intro address names bound line member
    obtain ⟨name, identifier, rfl⟩ := bound.isIdentifier named member
    exact (isLine_label identifier).1
  induction listed with
  | last bound => exact label bound
  | next bound shown _ ih =>
    obtain ⟨first, others⟩ := List.forall_mem_cons.mp written
    exact List.forall_mem_append.mpr ⟨label bound, List.forall_mem_cons.mpr ⟨shown.oneLine first, ih others⟩⟩

end Listed

namespace Assembly

variable {arch : Arch} {source : Text} {a : Assembly}

end Assembly

end RiscAsm
