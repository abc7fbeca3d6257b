import StackScript.Proofs.Assembly.Reading
import StackScript.Proofs.Instr.Written

/-!
# What compiles, and to what

Main statement (`compile_standard_iff_grammar`): a script compiles over the standard set exactly if
the grammar spells each of its lines with an instruction of the set, no label is declared on two
lines, and every label that a jump names is declared on some line. The program then holds one
instruction for each line that gives one, in the order of the lines, and it is the one written
there.
-/

namespace StackScript

open Grammar

/-! ### Lines of the standard set -/

namespace Line

variable {l : Line} {name : String} {i : Instr}

/-- The line has the form of the grammar, and the instruction on it, if there is one, has an entry. -/
def WellFormed (entries : List Entry) (l : Line) : Prop :=
  ∃ label body, SpellsLine l.text label body ∧
    ∀ mn ops, body = some (mn, ops) → ∃ e ∈ entries, e.Accepts mn ops

theorem readable_standard_iff : l.Readable .standard ↔ l.WellFormed standardEntries := by
  rw [readable_iff]
  constructor
  · rintro ⟨label, body, i?, hspells, hrel⟩
    refine ⟨label, body, hspells, ?_⟩
    rintro mn ops rfl
    cases hrel with
    | some hgives => exact (standard_gives_iff.mp hgives).1
  · rintro ⟨label, body, hspells, haccepts⟩
    cases body with
    | none => exact ⟨label, none, none, hspells, .none⟩
    | some m =>
      obtain ⟨e, he, haccept⟩ := haccepts m.1 m.2 rfl
      obtain ⟨i, hi⟩ := exists_standard_gives he haccept
      exact ⟨label, some m, some i, hspells, .some hi⟩

/-- What is written on a line of the standard set is the name and the operands of the instruction
taken from it. -/
theorem Readable.writes_iff (h : l.Readable .standard) (hi : l.instr? .standard = some i) {mn : String}
    {ops : Operands} : l.Writes mn ops ↔ i.mnemonic = mn ∧ i.operands = ops := by
  obtain ⟨mn', ops', hw, hgives⟩ := h.writes hi
  obtain ⟨-, hmn, hops, -⟩ := standard_gives_iff.mp hgives
  constructor
  · intro hw'
    obtain ⟨rfl, rfl⟩ := hw'.unique hw
    exact ⟨hmn, hops⟩
  · rintro ⟨rfl, rfl⟩
    rwa [hmn, hops]

/-- The line gives a jump to the label `name`. -/
def JumpsTo (l : Line) (name : String) : Prop :=
  ∃ mn ∈ ["jmp", "je", "jne"], l.Writes mn { first := some (.direct name) }

theorem exists_target?_iff :
    (∃ t ∈ i.target?, t.label = name) ↔
      i.mnemonic ∈ ["jmp", "je", "jne"] ∧ i.operands = { first := some (.direct name) } := by
  cases i with
  | jump condition t =>
    cases condition <;> simp [Instr.target?, Instr.mnemonic, Instr.kind, Kind.mnemonic, Instr.operands]
  | arith op => cases op <;> simp [Instr.target?, Instr.mnemonic, Instr.kind, Kind.mnemonic]
  | adjust delta register =>
    cases delta <;> simp [Instr.target?, Instr.mnemonic, Instr.kind, Kind.mnemonic]
  | logic op => cases op <;> simp [Instr.target?, Instr.mnemonic, Instr.kind, Kind.mnemonic]
  | _ => simp [Instr.target?, Instr.mnemonic, Instr.kind, Kind.mnemonic]

theorem Readable.jumpsTo_iff (h : l.Readable .standard) :
    l.JumpsTo name ↔ ∃ x ∈ l.placed? .standard, ∃ t ∈ x.instr.target?, t.label = name := by
  constructor
  · rintro ⟨mn, hmn, hw⟩
    obtain ⟨i, hi, -⟩ := h.exists_instr? hw
    obtain ⟨rfl, hops⟩ := (h.writes_iff hi).mp hw
    exact ⟨⟨i, l.number⟩, by simp [placed?, hi], exists_target?_iff.mpr ⟨hmn, hops⟩⟩
  · rintro ⟨x, hx, ht⟩
    obtain ⟨i, hi, rfl⟩ := Option.map_eq_some_iff.mp hx
    obtain ⟨hmn, hops⟩ := exists_target?_iff.mp ht
    exact ⟨i.mnemonic, hmn, (h.writes_iff hi).mpr ⟨rfl, hops⟩⟩

/-! ### The code of some lines -/

/-- The code and the line numbers are those of the lines: a line gives nothing if nothing is written
on it, and else the instruction of that name with these operands. -/
inductive Emits : List Line → List Instr → List Nat → Prop where
  | nil : Emits [] [] []
  | silent {l : Line} {ls : List Line} {code : List Instr} {numbers : List Nat}
      (silent : ∀ mn ops, ¬l.Writes mn ops) (rest : Emits ls code numbers) :
      Emits (l :: ls) code numbers
  | instr {l : Line} {ls : List Line} {i : Instr} {code : List Instr} {numbers : List Nat}
      (written : l.Writes i.mnemonic i.operands) (rest : Emits ls code numbers) :
      Emits (l :: ls) (i :: code) (l.number :: numbers)

/-- The lines fix the code, but for the positions of jumps. -/
theorem Emits.unique {ls : List Line} {code code' : List Instr} {numbers numbers' : List Nat}
    (h : Emits ls code numbers) (h' : Emits ls code' numbers') :
    code.map (·.withPosition none) = code'.map (·.withPosition none) ∧ numbers = numbers' := by
  induction h generalizing code' numbers' with
  | nil =>
    cases h'
    exact ⟨rfl, rfl⟩
  | silent hsilent _ ih =>
    -- Which rule applies to a line depends on the line alone, so both derivations use the same.
    cases h' with
    | silent _ hrest => exact ih hrest
    | instr hwritten _ => exact absurd hwritten (hsilent _ _)
  | instr hwritten _ ih =>
    cases h' with
    | silent hsilent _ => exact absurd hwritten (hsilent _ _)
    | instr hwritten' hrest =>
      obtain ⟨hcode, hnumbers⟩ := ih hrest
      obtain ⟨hmn, hops⟩ := hwritten.unique hwritten'
      rw [List.map_cons, List.map_cons, Instr.eq_of_written hmn hops, hcode, hnumbers]
      exact ⟨rfl, rfl⟩

end Line

namespace Assembly

/-- Filling in positions keeps what is written. -/
theorem written_filled (a : Assembly) (i : Instr) :
    (a.filled i).mnemonic = i.mnemonic ∧ (a.filled i).operands = i.operands := by
  unfold filled
  split
  · exact ⟨rfl, rfl⟩
  · exact ⟨i.mnemonic_withPosition _, i.operands_withPosition _⟩

theorem emits_filled (a : Assembly) {ls : List Line} (h : ∀ l ∈ ls, l.Readable .standard) :
    Line.Emits ls ((ls.filterMap (Line.placed? .standard)).map (a.filled ·.instr))
      ((ls.filterMap (Line.placed? .standard)).map (·.line)) := by
  induction ls with
  | nil => exact .nil
  | cons l ls ih =>
    have hl := h l (by simp)
    have hrest := ih fun l' hl' => h l' (by simp [hl'])
    cases hi : l.instr? .standard with
    | none =>
      rw [List.filterMap_cons_none (by rw [Line.placed?, hi]; rfl)]
      refine .silent (fun mn ops hw => ?_) hrest
      obtain ⟨i, hi', -⟩ := hl.exists_instr? hw
      simp [hi] at hi'
    | some i =>
      have hplaced : l.placed? .standard = some ⟨i, l.number⟩ := by rw [Line.placed?, hi]; rfl
      rw [List.filterMap_cons_some hplaced]
      obtain ⟨hmn, hops⟩ := a.written_filled i
      exact .instr ((hl.writes_iff hi).mpr ⟨hmn.symm, hops.symm⟩) hrest

end Assembly

/-! ### Scripts -/

theorem jumps_declared_iff {ls : List Line} (h : ∀ l ∈ ls, l.Readable .standard) :
    (∀ x ∈ ls.filterMap (Line.placed? .standard), ∀ t ∈ x.instr.target?,
        t.label ∈ ls.filterMap (Line.label? .standard)) ↔
      ∀ l ∈ ls, ∀ name, l.JumpsTo name → ∃ l' ∈ ls, l'.Declares name := by
  simp only [mem_labels_iff h, List.mem_filterMap]
  constructor
  · intro hall l hl name hjump
    obtain ⟨x, hx, t, ht, rfl⟩ := (h l hl).jumpsTo_iff.mp hjump
    exact hall x ⟨l, hl, hx⟩ t ht
  · rintro hall x ⟨l, hl, hx⟩ t ht
    exact hall l hl t.label ((h l hl).jumpsTo_iff.mpr ⟨x, hx, t, ht, rfl⟩)

/-- A script compiles exactly if the grammar spells its lines, no label is declared on two lines,
and each label that is jumped to is declared. The program is what the lines give, in order, and
nothing else is but for the positions of jumps. -/
theorem compile_standard_iff_grammar (script : String) :
    ((∃ p, Program.compile .standard script = .ok p) ↔
      (∀ l ∈ Line.scan script.toList, l.WellFormed standardEntries) ∧
        (∀ l ∈ Line.scan script.toList, ∀ l' ∈ Line.scan script.toList, ∀ name,
          l.Declares name → l'.Declares name → l = l') ∧
        (∀ l ∈ Line.scan script.toList, ∀ name, l.JumpsTo name →
          ∃ l' ∈ Line.scan script.toList, l'.Declares name)) ∧
      ∀ p, Program.compile .standard script = .ok p →
        Line.Emits (Line.scan script.toList) p.code.toList p.lines.toList ∧
          ∀ code numbers, Line.Emits (Line.scan script.toList) code numbers →
            code.map (·.withPosition none) = p.code.toList.map (·.withPosition none) ∧
              numbers = p.lines.toList := by
  simp only [compile_eq_ok_iff, ← Line.readable_standard_iff]
  refine ⟨⟨?_, ?_⟩, ?_⟩
  · rintro ⟨p, hread, hnodup, hjumps, -⟩
    exact ⟨hread, (nodup_labels_iff hread).mp hnodup, (jumps_declared_iff hread).mp hjumps⟩
  · rintro ⟨hread, hnodup, hjumps⟩
    exact ⟨_, hread, (nodup_labels_iff hread).mpr hnodup, (jumps_declared_iff hread).mpr hjumps, rfl⟩
  · rintro p ⟨hread, -, -, rfl⟩
    -- Positions are not written, so filling them in keeps what the lines give.
    have hemits := (Assembly.ofLines .standard (Line.scan script.toList)).emits_filled hread
    rw [← Assembly.code_program_ofLines, ← Assembly.lines_program_ofLines] at hemits
    exact ⟨hemits, fun code numbers h => h.unique hemits⟩

end StackScript
