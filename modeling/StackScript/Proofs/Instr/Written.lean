import StackScript.Instr.Set

/-!
# Instructions as they are written

An instruction is written as a mnemonic and operands. `Instr.operands` reads these off the
instruction again, so it says what a mnemonic with operands denotes without the way there: the
instruction of that name with these operands (`Kind.instantiate?_eq_some_iff`), which is unique but
for the position of a jump (`Instr.eq_of_written`). Main statement (`standard_gives_iff`): the
standard set gives the instruction that is written exactly if it has an entry for it.
-/

namespace StackScript

/-! ### Operands of an instruction -/

def Place.operand : Place → Operand
  | .register name => .register name
  | .direct name => .direct name

/-- The operands that an instruction is written with; the position of a jump is not written. -/
def Instr.operands : Instr → Operands
  | .push src => { first := some src }
  | .pop dst => { first := some dst.operand }
  | .move dst src => { first := some dst.operand, second := some src }
  | .compare lhs rhs => { first := some lhs, second := some rhs }
  | .adjust _ register => { first := some (.register register) }
  | .jump _ target => { first := some (.direct target.label) }
  | .arith _ | .negate | .logic _ | .nop => {}

/-- The operands, in order. -/
def Operands.toList (ops : Operands) : List Operand := ops.first.toList ++ ops.second.toList

/-- Not a jump, or a jump whose position is not known. -/
def Instr.Unresolved (i : Instr) : Prop := ∀ t ∈ i.target?, t.position = none

theorem Instr.operands_of_target? {i : Instr} {t : Target} (h : i.target? = some t) :
    i.operands.toList = [.direct t.label] := by
  cases i with
  | jump condition t' =>
    cases h
    rfl
  | _ => cases h

theorem place?_eq_some_iff {a : Operand} {p : Place} : a.place? = some p ↔ p.operand = a := by
  cases a <;> cases p <;> simp [Operand.place?, Place.operand, eq_comm]

theorem Kind.instantiate?_eq_some_iff {k : Kind} {ops : Operands} {i : Instr} :
    k.instantiate? ops = some i ↔ i.kind = k ∧ i.operands = ops ∧ i.Unresolved := by
  constructor
  · intro h
    unfold Kind.instantiate? at h
    split at h
    case h_2 dst =>
      obtain ⟨p, hp, rfl⟩ := Option.map_eq_some_iff.mp h
      rw [← place?_eq_some_iff.mp hp]
      exact ⟨rfl, rfl, by simp [Instr.Unresolved, Instr.target?]⟩
    case h_3 dst src =>
      obtain ⟨p, hp, rfl⟩ := Option.map_eq_some_iff.mp h
      rw [← place?_eq_some_iff.mp hp]
      exact ⟨rfl, rfl, by simp [Instr.Unresolved, Instr.target?]⟩
    case h_11 => simp at h
    all_goals
      cases h
      exact ⟨rfl, rfl, by simp [Instr.Unresolved, Instr.target?]⟩
  · rintro ⟨rfl, rfl, hi⟩
    cases i with
    | pop dst => cases dst <;> rfl
    | move dst src => cases dst <;> rfl
    | jump condition target =>
      have hposition : target.position = none := hi target rfl
      cases target
      simp only at hposition
      subst hposition
      rfl
    | _ => rfl

/-! ### Positions are not written -/

namespace Instr

theorem kind_withPosition (i : Instr) (position : Option Nat) : (i.withPosition position).kind = i.kind := by
  cases i <;> rfl

theorem mnemonic_withPosition (i : Instr) (position : Option Nat) :
    (i.withPosition position).mnemonic = i.mnemonic := by
  rw [mnemonic, kind_withPosition, mnemonic]

theorem operands_withPosition (i : Instr) (position : Option Nat) :
    (i.withPosition position).operands = i.operands := by
  cases i <;> rfl

theorem unresolved_withPosition_none (i : Instr) : (i.withPosition none).Unresolved := by
  cases i <;> simp [withPosition, Unresolved, target?]

end Instr

/-! ### Entries -/

/-- The entry is for this mnemonic and operands of this shape. A lone direct operand may be a label.
-/
def Entry.Accepts (e : Entry) (mn : String) (ops : Operands) : Prop :=
  e.mnemonic = mn ∧ (e.mode = ops.mode ∨ ops.mode = Mode.dir1 ∧ e.mode = Mode.labelled)

instance (e : Entry) (mn : String) (ops : Operands) : Decidable (e.Accepts mn ops) :=
  inferInstanceAs (Decidable (_ ∧ _))

namespace InstrSet

/-- The set has the mnemonic with operands of this shape, and `i` is the instruction. -/
def Gives (set : InstrSet) (mn : String) (ops : Operands) (i : Instr) : Prop :=
  ∃ e, set.resolve mn ops.mode = .ok e ∧ e.kind.instantiate? ops = some i

theorem Gives.entries_ne_nil {set : InstrSet} {mn : String} {ops : Operands} {i : Instr}
    (h : set.Gives mn ops i) : set.entries mn ≠ [] := by
  obtain ⟨e, he, -⟩ := h
  unfold resolve at he
  unfold entries
  split at he
  · simp at he
  · next group hgroup =>
    rw [hgroup]
    rintro rfl
    simp at he

theorem get?_add (s : InstrSet) (e : Entry) (mn : String) :
    (s.add e).groups.get? mn =
      if e.mnemonic = mn then some (s.entries mn ++ [e]) else s.groups.get? mn := by
  unfold add
  rw [Table.get?_insert]
  split
  · next h => rw [h]
  · rfl

/-- After a list of entries, a group holds those with its mnemonic, in order, and none is empty. -/
theorem get?_foldl_add (l : List Entry) (mn : String) (s : InstrSet) :
    (l.foldl add s).groups.get? mn =
      if l.filter (·.mnemonic = mn) = [] then s.groups.get? mn
      else some (s.entries mn ++ l.filter (·.mnemonic = mn)) := by
  induction l generalizing s with
  | nil => simp
  | cons e l ih =>
    rw [List.foldl_cons, ih, get?_add]
    have hentries : (s.add e).entries mn = if e.mnemonic = mn then s.entries mn ++ [e] else s.entries mn := by
      rw [entries, get?_add]
      split <;> rfl
    rw [hentries]
    by_cases he : e.mnemonic = mn
    · by_cases hl : l.filter (·.mnemonic = mn) = []
      · simp [he, hl]
      · simp [he, hl]
    · simp [he]

theorem get?_ofList (l : List Entry) (mn : String) :
    (ofList l).groups.get? mn =
      if l.filter (·.mnemonic = mn) = [] then none else some (l.filter (·.mnemonic = mn)) := by
  rw [ofList, get?_foldl_add]
  rfl

/-- What is found is an entry of the list that accepts the written form. -/
theorem accepts_of_resolve_ofList {l : List Entry} {mn : String} {ops : Operands} {e : Entry}
    (h : (ofList l).resolve mn ops.mode = .ok e) : e ∈ l ∧ e.Accepts mn ops := by
  unfold resolve at h
  rw [get?_ofList] at h
  split at h
  · simp at h
  · next group hgroup =>
    split at hgroup
    · simp at hgroup
    · cases hgroup
      split at h
      · next e' he' =>
        cases h
        have hmem := List.mem_filter.mp (List.mem_of_find?_eq_some he')
        have hmode : e.mode = ops.mode := by simpa using List.find?_some he'
        exact ⟨hmem.1, by simpa using hmem.2, .inl hmode⟩
      · split at h
        · next hdir =>
          split at h
          · next e' he' =>
            cases h
            have hmem := List.mem_filter.mp (List.mem_of_find?_eq_some he')
            have hmode : e.mode = Mode.labelled := by simpa using List.find?_some he'
            exact ⟨hmem.1, by simpa using hmem.2, .inr ⟨hdir, hmode⟩⟩
          · simp at h
        · simp at h

/-- If an entry accepts the written form, one is found. -/
theorem resolve_ofList_of_accepts {l : List Entry} {mn : String} {ops : Operands} {e : Entry}
    (he : e ∈ l) (h : e.Accepts mn ops) : ∃ e', (ofList l).resolve mn ops.mode = .ok e' := by
  obtain ⟨hmn, hmode⟩ := h
  have hmem : e ∈ l.filter (·.mnemonic = mn) := List.mem_filter.mpr ⟨he, by simpa using hmn⟩
  have hfind : ∀ {m : Mode}, e.mode = m → ∃ e', (l.filter (·.mnemonic = mn)).find? (·.mode = m) = some e' := by
    intro m hm
    rw [← Option.isSome_iff_exists, List.find?_isSome]
    exact ⟨e, hmem, by simpa using hm⟩
  unfold resolve
  rw [get?_ofList, if_neg (List.ne_nil_of_mem hmem)]
  simp only
  split
  · exact ⟨_, rfl⟩
  · next hnone =>
    rcases hmode with hexact | ⟨hdir, hlabel⟩
    · obtain ⟨e', he'⟩ := hfind hexact
      rw [he'] at hnone
      simp at hnone
    · obtain ⟨e', he'⟩ := hfind hlabel
      rw [if_pos hdir, he']
      exact ⟨e', rfl⟩

end InstrSet

/-! ### The standard set -/

/-- Whether operands of a mode can be made into an instruction of a kind. -/
def Kind.takes (k : Kind) (m : Mode) : Bool :=
  match k with
  | .push => m.first != {} && m.second == {}
  | .pop => !m.first.immediate && m.first != {} && m.second == {}
  | .move => !m.first.immediate && m.first != {} && m.second != {}
  | .compare => m.first != {} && m.second != {}
  | .adjust _ => m == Mode.reg1
  | .jump _ => m == Mode.dir1
  | .arith _ | .negate | .logic _ | .nop => m == {}

theorem Kind.isSome_instantiate? (k : Kind) (ops : Operands) :
    (k.instantiate? ops).isSome = k.takes ops.mode := by
  rcases ops with ⟨_ | (_ | _ | _), _ | (_ | _ | _)⟩ <;> cases k <;> rfl

/-- An entry fits its kind: whatever it accepts can be made into an instruction, and its mnemonic is
that of the kind. -/
theorem standardEntries_fit : ∀ e ∈ standardEntries, e.mnemonic = e.kind.mnemonic ∧
    (e.mode ≠ Mode.labelled → e.kind.takes e.mode) ∧ (e.mode = Mode.labelled → e.kind.takes Mode.dir1) := by
  decide

theorem Operands.mode_ne_labelled (ops : Operands) : ops.mode ≠ Mode.labelled := by
  intro h
  have hlabel := congrArg Mode.label h
  simp [Operands.mode, Mode.labelled] at hlabel

/-- What an entry accepts can be made into an instruction, if its kind takes its mode, or a lone direct operand
for a label. -/
theorem Entry.Accepts.isSome_of_takes {e : Entry} {mn : String} {ops : Operands} (h : e.Accepts mn ops)
    (hexact : e.mode ≠ Mode.labelled → e.kind.takes e.mode)
    (hlabel : e.mode = Mode.labelled → e.kind.takes Mode.dir1) : (e.kind.instantiate? ops).isSome := by
  rw [Kind.isSome_instantiate?]
  rcases h.2 with hmode | ⟨hdir, hmode⟩
  · rw [← hmode]
    exact hexact (hmode ▸ ops.mode_ne_labelled)
  · rw [hdir]
    exact hlabel hmode

theorem Entry.Accepts.instantiate?_isSome {e : Entry} {mn : String} {ops : Operands} (h : e.Accepts mn ops)
    (he : e ∈ standardEntries) : (e.kind.instantiate? ops).isSome := by
  obtain ⟨-, hexact, hlabel⟩ := standardEntries_fit e he
  exact h.isSome_of_takes hexact hlabel

/-- Every kind has a mnemonic of its own, under which the standard set has it. -/
theorem find?_standardEntries (k : Kind) :
    (standardEntries.find? (·.mnemonic = k.mnemonic)).map (·.kind) = some k := by
  rcases k with _ | _ | _ | _ | (_ | _ | _ | _) | _ | (_ | _) | (_ | _) | (_ | _ | _) | _ <;> rfl

theorem Kind.mnemonic_injective {k k' : Kind} (h : k.mnemonic = k'.mnemonic) : k = k' := by
  have hk := find?_standardEntries k
  rw [h, find?_standardEntries k'] at hk
  exact (Option.some.inj hk).symm

/-- But for the position of a jump, an instruction is known from its name and operands. -/
theorem Instr.eq_of_written {i j : Instr} (hmn : i.mnemonic = j.mnemonic) (hops : i.operands = j.operands) :
    i.withPosition none = j.withPosition none := by
  have hinst : ∀ k : Instr, k.kind.instantiate? k.operands = some (k.withPosition none) := fun k =>
    Kind.instantiate?_eq_some_iff.mpr
      ⟨k.kind_withPosition none, k.operands_withPosition none, k.unresolved_withPosition_none⟩
  have hi := hinst i
  rw [Kind.mnemonic_injective hmn, hops, hinst j] at hi
  exact (Option.some.inj hi).symm

/-- The standard set gives exactly the instruction of the name and operands written, for the forms
that it has. -/
theorem standard_gives_iff {mn : String} {ops : Operands} {i : Instr} :
    InstrSet.standard.Gives mn ops i ↔
      (∃ e ∈ standardEntries, e.Accepts mn ops) ∧ i.mnemonic = mn ∧ i.operands = ops ∧ i.Unresolved := by
  constructor
  · rintro ⟨e, he, hi⟩
    obtain ⟨hmem, haccepts⟩ := InstrSet.accepts_of_resolve_ofList he
    obtain ⟨hkind, hops, hunresolved⟩ := Kind.instantiate?_eq_some_iff.mp hi
    refine ⟨⟨e, hmem, haccepts⟩, ?_, hops, hunresolved⟩
    rw [Instr.mnemonic, hkind, ← (standardEntries_fit e hmem).1]
    exact haccepts.1
  · rintro ⟨⟨e, hmem, haccepts⟩, hmn, hops, hunresolved⟩
    obtain ⟨e', he'⟩ := InstrSet.resolve_ofList_of_accepts hmem haccepts
    obtain ⟨hmem', haccepts'⟩ := InstrSet.accepts_of_resolve_ofList he'
    refine ⟨e', he', Kind.instantiate?_eq_some_iff.mpr ⟨Kind.mnemonic_injective ?_, hops, hunresolved⟩⟩
    rw [← (standardEntries_fit e' hmem').1, haccepts'.1]
    exact hmn

/-- A form that the standard set has denotes an instruction. -/
theorem exists_standard_gives {mn : String} {ops : Operands} {e : Entry} (he : e ∈ standardEntries)
    (h : e.Accepts mn ops) : ∃ i, InstrSet.standard.Gives mn ops i := by
  obtain ⟨e', he'⟩ := InstrSet.resolve_ofList_of_accepts he h
  obtain ⟨hmem', haccepts'⟩ := InstrSet.accepts_of_resolve_ofList he'
  obtain ⟨i, hi⟩ := Option.isSome_iff_exists.mp (haccepts'.instantiate?_isSome hmem')
  exact ⟨i, e', he', hi⟩

end StackScript
