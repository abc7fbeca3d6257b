import StackScript.Proofs.Instr.Written

/-!
# Looking up an entry

An instruction set is kept grouped by mnemonic. Main statement (`lookup_eq_search`): it answers as if
the list of entries that it was made from were looked through from the beginning (`search`), whichever
entries are in the list; its groups are the parts of the list with one mnemonic, and its mnemonics are
those of the list, in strictly increasing order.
-/

namespace StackScript

namespace Table

variable {α : Type}

/-- A name is bound exactly if there is an entry for it. -/
theorem mem_names_iff {t : Table α} {name : String} : name ∈ t.names ↔ t.get? name ≠ none := by
  unfold names get?
  induction t.toList with
  | nil => simp [lookup]
  | cons binding rest ih =>
    obtain ⟨n, a⟩ := binding
    by_cases hn : n = name
    · simp [lookup, hn]
    · simp [lookup, hn, Ne.symm hn, ih]

theorem pairwise_names (t : Table α) : t.names.Pairwise (· < ·) :=
  List.pairwise_map.mpr t.ordered

end Table

namespace InstrSet

/-! ### Looking through a list -/

/-- The first entry with a mnemonic and exactly a mode. -/
def first? (l : List Entry) (mn : String) (mode : Mode) : Option Entry :=
  l.find? fun e => e.mnemonic = mn ∧ e.mode = mode

/-- The entry for a mnemonic and a mode: the first with both of them, or else, for a lone direct
operand, the first with the mnemonic that takes a label. -/
def found? (l : List Entry) (mn : String) (mode : Mode) : Option Entry :=
  (first? l mn mode).or (if mode = Mode.dir1 then first? l mn Mode.labelled else none)

/-- Looks through a list of entries. Where nothing is found, it matters whether the mnemonic occurs. -/
def search (l : List Entry) (mn : String) (mode : Mode) : Except LookupError Entry :=
  match found? l mn mode with
  | some e => .ok e
  | none => .error (if ∃ e ∈ l, e.mnemonic = mn then .unsupportedMode else .unknownMnemonic)

theorem find?_filter_mnemonic (l : List Entry) (mn : String) (mode : Mode) :
    (l.filter (·.mnemonic = mn)).find? (·.mode = mode) = first? l mn mode := by
  unfold first?
  rw [List.find?_filter]
  congr 1
  funext e
  simp

/-- Only an entry with the mnemonic is found. -/
theorem found?_eq_none {l : List Entry} {mn : String} (h : ∀ e ∈ l, e.mnemonic ≠ mn) (mode : Mode) :
    found? l mn mode = none := by
  have hnone : ∀ m, first? l mn m = none := by
    intro m
    apply List.find?_eq_none.mpr
    intro e he
    simp [h e he]
  simp [found?, hnone]

/-! ### The set made from a list -/

theorem filter_mnemonic_eq_nil_iff {l : List Entry} {mn : String} :
    l.filter (·.mnemonic = mn) = [] ↔ ∀ e ∈ l, e.mnemonic ≠ mn := by
  simp [List.filter_eq_nil_iff]

/-- A group is the part of the list with its mnemonic, in the order of the list. -/
theorem entries_ofList (l : List Entry) (mn : String) :
    (ofList l).entries mn = l.filter (·.mnemonic = mn) := by
  unfold entries
  rw [get?_ofList]
  split
  · next hnil => rw [hnil]; rfl
  · rfl

theorem mem_mnemonics_ofList {l : List Entry} {name : String} :
    name ∈ (ofList l).mnemonics ↔ ∃ e ∈ l, e.mnemonic = name := by
  unfold mnemonics
  rw [Table.mem_names_iff, get?_ofList]
  simp

theorem resolve_ofList (l : List Entry) (mn : String) (mode : Mode) :
    (ofList l).resolve mn mode = search l mn mode := by
  unfold resolve search
  rw [get?_ofList]
  by_cases hnil : l.filter (·.mnemonic = mn) = []
  · have hnone := filter_mnemonic_eq_nil_iff.mp hnil
    have hno : ¬∃ e ∈ l, e.mnemonic = mn := fun ⟨e, he, hmn⟩ => hnone e he hmn
    rw [if_pos hnil, found?_eq_none hnone, if_neg hno]
  · have hyes : ∃ e ∈ l, e.mnemonic = mn := by
      obtain ⟨e, he⟩ := List.exists_mem_of_ne_nil _ hnil
      exact ⟨e, (List.mem_filter.mp he).1, by simpa using (List.mem_filter.mp he).2⟩
    rw [if_neg hnil, if_pos hyes]
    simp only [find?_filter_mnemonic, found?]
    -- The exact entry goes first; only then it matters whether the operand may be a label.
    cases hexact : first? l mn mode with
    | some e => rfl
    | none =>
      by_cases hdir : mode = Mode.dir1
      · cases hlabel : first? l mn Mode.labelled with
        | some e => simp only [if_pos hdir, Option.none_or]
        | none => simp only [if_pos hdir, Option.none_or]
      · simp only [if_neg hdir, Option.none_or]

/-- The set made from a list answers like a search of the list. A group is the part of the list with one
mnemonic, in order, and the mnemonics are those that occur, each once and in increasing order. -/
theorem lookup_eq_search (l : List Entry) (mn : String) (mode : Mode) :
    (ofList l).resolve mn mode = search l mn mode ∧
      (ofList l).entries mn = l.filter (·.mnemonic = mn) ∧
      (ofList l).mnemonics.Pairwise (· < ·) ∧
      ∀ name, name ∈ (ofList l).mnemonics ↔ ∃ e ∈ l, e.mnemonic = name := by
  refine ⟨resolve_ofList l mn mode, entries_ofList l mn, Table.pairwise_names _, ?_⟩
  intro name
  exact mem_mnemonics_ofList

/-- An entry that fits exactly goes before those that take a label, also if it stands behind them. -/
example :
    search [⟨"go", .labelled, .jump .always⟩, ⟨"go", .dir1, .push⟩] "go" .dir1 = .ok ⟨"go", .dir1, .push⟩ :=
  rfl

end InstrSet
end StackScript
