import StackScript.Assembly.Basic
import StackScript.Proofs.Fallible

/-!
# The two passes

What the passes of the assembler compute when nothing goes wrong, as plain functions:
`Assembly.after` adds a line and `Assembly.program` is the outcome of the second pass. Each pass
succeeds exactly if each of its steps does, and the condition of a step is read off the lines. Main
statement (`compile_eq_ok_iff`): a script compiles exactly if every line can be read, no label is
declared twice, and every jump names a declared label.
-/

namespace StackScript

open Fallible

namespace Line

/-- The label that a line declares. -/
def label? (set : InstrSet) (l : Line) : Option String := (Statement.parse set l.text).label

/-- The line can be read. -/
def Readable (set : InstrSet) (l : Line) : Prop := ∃ i?, (Statement.parse set l.text).instr = .ok i?

/-- The instruction that a line gives, if it can be read and gives one. -/
def instr? (set : InstrSet) (l : Line) :
    Option Instr := (Statement.parse set l.text).instr.toOption.join

/-- What a line adds to the code. -/
def placed? (set : InstrSet) (l : Line) : Option Placed := (l.instr? set).map (Placed.mk · l.number)

end Line

namespace Assembly

variable {set : InstrSet}

/-! ### First pass -/

/-- The assembly with a further line. -/
def after (set : InstrSet) (a : Assembly) (l : Line) : Assembly where
  placed := a.placed ++ (l.placed? set).toList
  labels := (l.label? set).toList.map (Label.mk · a.placed.size l.number) ++ a.labels

/-- The assembly of some lines. -/
def ofLines (set : InstrSet) (ls : List Line) : Assembly := ls.foldl (after set) {}

theorem addStatement_eq_ok_iff {a b : Assembly} {line : Nat} {label : Option String}
    {instr : Except Cause (Option Instr)} :
    a.addStatement line ⟨label, instr⟩ = .ok b ↔
      ∃ i? : Option Instr, instr = .ok i? ∧ (∀ name ∈ label, a.label? name = none) ∧
        b = { placed := a.placed ++ (i?.map (Placed.mk · line)).toList
              labels := label.toList.map (Label.mk · a.placed.size line) ++ a.labels } := by
  cases instr with
  | error cause => cases label <;> simp [addStatement, bind_eq_ok_iff]
  | ok i? =>
    cases label with
    | none =>
      cases i? with
      | none => simp [addStatement]; exact eq_comm
      | some i => simp [addStatement, eq_comm]
    | some name =>
      cases hname : a.label? name with
      | none => cases i? <;> simp [addStatement, declare, hname, eq_comm]
      | some first => simp [addStatement, declare, hname]

/-- A line is added if it can be read and its label is new. -/
theorem addLine_eq_ok_iff {a b : Assembly} {l : Line} :
    a.addLine set l = .ok b ↔
      l.Readable set ∧ (∀ name ∈ l.label? set, a.label? name = none) ∧ b = a.after set l := by
  unfold addLine
  rw [mapError_eq_ok_iff, Statement.ofText_eq]
  have hstatement : Statement.parse set l.text = ⟨l.label? set, (Statement.parse set l.text).instr⟩ := rfl
  rw [hstatement, addStatement_eq_ok_iff]
  constructor
  · rintro ⟨i?, hi, hnew, rfl⟩
    exact ⟨⟨i?, hi⟩, hnew, by simp [after, Line.placed?, Line.instr?, hi, Except.toOption]⟩
  · rintro ⟨⟨i?, hi⟩, hnew, rfl⟩
    exact ⟨i?, hi, hnew, by simp [after, Line.placed?, Line.instr?, hi, Except.toOption]⟩

theorem label?_after (a : Assembly) (l : Line) (name : String) :
    (a.after set l).label? name =
      if l.label? set = some name then some ⟨name, a.placed.size, l.number⟩ else a.label? name := by
  unfold label? after
  cases h : Line.label? set l with
  | none => simp
  | some name' =>
    by_cases heq : name' = name
    · simp [heq]
    · simp [heq]

/-- The labels of some lines are distinct, and none of them is declared in the assembly. -/
def Fresh (set : InstrSet) (a : Assembly) (ls : List Line) : Prop :=
  (ls.filterMap (Line.label? set)).Nodup ∧ ∀ name ∈ ls.filterMap (Line.label? set), a.label? name = none

/-- Labels are fresh if the first is, and the others are fresh to the assembly that has it. -/
theorem fresh_cons_iff {a : Assembly} {l : Line} {ls : List Line} :
    a.Fresh set (l :: ls) ↔
      (∀ name ∈ l.label? set, a.label? name = none) ∧ (a.after set l).Fresh set ls := by
  unfold Fresh
  cases hlabel : l.label? set with
  | none => simp [hlabel, label?_after]
  | some first =>
    simp only [List.filterMap_cons_some hlabel, List.nodup_cons, label?_after, hlabel, Option.some.injEq]
    constructor
    · rintro ⟨⟨hfirst, hnodup⟩, hnew⟩
      refine ⟨fun name hname => hnew name (by simp_all), hnodup, fun name hname => ?_⟩
      rw [if_neg (by rintro rfl; exact hfirst hname)]
      exact hnew name (List.mem_cons_of_mem _ hname)
    · rintro ⟨hnew, hnodup, hfresh⟩
      -- A second declaration below would not be fresh to the assembly that has the first.
      have hfirst : first ∉ ls.filterMap (Line.label? set) := by
        intro hmem
        simpa using hfresh first hmem
      refine ⟨⟨hfirst, hnodup⟩, fun name hname => ?_⟩
      rcases List.mem_cons.mp hname with rfl | hname
      · exact hnew name rfl
      · have h := hfresh name hname
        rwa [if_neg (by rintro rfl; exact hfirst hname)] at h

/-- Lines are added in turn if all can be read and their labels are fresh. -/
theorem foldlM_addLine_eq_ok_iff {ls : List Line} {a b : Assembly} :
    ls.foldlM (addLine set) a = .ok b ↔
      (∀ l ∈ ls, l.Readable set) ∧ a.Fresh set ls ∧ b = ls.foldl (after set) a := by
  induction ls generalizing a with
  | nil => simp [Fresh, eq_comm]
  | cons l ls ih =>
    rw [List.foldlM_cons, bind_eq_ok_iff, fresh_cons_iff]
    simp only [addLine_eq_ok_iff, ih, List.mem_cons, forall_eq_or_imp]
    constructor
    · rintro ⟨_, ⟨hl, hnew, rfl⟩, hls, hfresh, rfl⟩
      exact ⟨⟨hl, hls⟩, ⟨hnew, hfresh⟩, rfl⟩
    · rintro ⟨⟨hl, hls⟩, ⟨hnew, hfresh⟩, rfl⟩
      exact ⟨_, ⟨hl, hnew, rfl⟩, hls, hfresh, rfl⟩

/-! ### What the first pass collects -/

theorem placed_foldl_after (ls : List Line) (a : Assembly) :
    (ls.foldl (after set) a).placed.toList = a.placed.toList ++ ls.filterMap (Line.placed? set) := by
  induction ls generalizing a with
  | nil => simp
  | cons l ls ih =>
    rw [List.foldl_cons, ih]
    cases h : l.placed? set <;> simp [after, h]

/-- The code is what the lines add to it, in their order. -/
theorem placed_ofLines (ls : List Line) :
    (ofLines set ls).placed.toList = ls.filterMap (Line.placed? set) := by
  simp [ofLines, placed_foldl_after]

theorem size_placed_ofLines (ls : List Line) :
    (ofLines set ls).placed.size = (ls.filterMap (Line.placed? set)).length := by
  rw [← placed_ofLines, Array.length_toList]

theorem label?_foldl_after {ls : List Line} {name : String} (h : name ∉ ls.filterMap (Line.label? set))
    (a : Assembly) : (ls.foldl (after set) a).label? name = a.label? name := by
  induction ls generalizing a with
  | nil => rfl
  | cons l ls ih =>
    have hl : l.label? set ≠ some name := by
      intro hl
      exact h (List.mem_filterMap.mpr ⟨l, by simp, hl⟩)
    have hls : name ∉ ls.filterMap (Line.label? set) := by
      intro hmem
      obtain ⟨l', hl', hname⟩ := List.mem_filterMap.mp hmem
      exact h (List.mem_filterMap.mpr ⟨l', by simp [hl'], hname⟩)
    rw [List.foldl_cons, ih hls, label?_after, if_neg hl]

theorem label?_foldl_after_eq_none_iff {ls : List Line} {name : String} {a : Assembly} :
    (ls.foldl (after set) a).label? name = none ↔
      name ∉ ls.filterMap (Line.label? set) ∧ a.label? name = none := by
  induction ls generalizing a with
  | nil => simp
  | cons l ls ih =>
    rw [List.foldl_cons, ih, label?_after]
    by_cases hl : l.label? set = some name
    · simp [hl]
    · simp [hl]

/-- A label is known if some line declares it. -/
theorem label?_ofLines_ne_none_iff {ls : List Line} {name : String} :
    (ofLines set ls).label? name ≠ none ↔ name ∈ ls.filterMap (Line.label? set) := by
  have hempty : ({} : Assembly).label? name = none := rfl
  rw [ofLines, ne_eq, label?_foldl_after_eq_none_iff, hempty]
  simp

/-- A label stands for the number of instructions on the lines before its declaration. -/
theorem label?_ofLines_append {before rest : List Line} {l : Line} {name : String}
    (hl : l.label? set = some name) (hrest : name ∉ rest.filterMap (Line.label? set)) :
    (ofLines set (before ++ l :: rest)).label? name =
      some ⟨name, (before.filterMap (Line.placed? set)).length, l.number⟩ := by
  have hsize : (ofLines set before).placed.size = _ := size_placed_ofLines before
  unfold ofLines at hsize ⊢
  rw [List.foldl_append, List.foldl_cons, label?_foldl_after hrest, label?_after, if_pos hl, hsize]

/-! ### Second pass -/

/-- The instruction with the position of its label filled in. -/
def filled (a : Assembly) (i : Instr) : Instr :=
  match i.target? with
  | none => i
  | some target => i.withPosition ((a.label? target.label).map (·.position))

/-- The program that an assembly amounts to. -/
def program (a : Assembly) : Program where
  code := (a.placed.toList.map (a.filled ·.instr)).toArray
  lines := a.placed.map (·.line)

theorem code_program_ofLines (ls : List Line) :
    (ofLines set ls).program.code.toList =
      (ls.filterMap (Line.placed? set)).map ((ofLines set ls).filled ·.instr) := by
  simp [program, placed_ofLines]

theorem lines_program_ofLines (ls : List Line) :
    (ofLines set ls).program.lines.toList = (ls.filterMap (Line.placed? set)).map (·.line) := by
  simp [program, placed_ofLines]

theorem resolve_eq_ok_iff {a : Assembly} {x : Placed} {i : Instr} :
    a.resolve x = .ok i ↔ (∀ t ∈ x.instr.target?, a.label? t.label ≠ none) ∧ i = a.filled x.instr := by
  unfold resolve filled
  cases htarget : x.instr.target? with
  | none => simp [eq_comm]
  | some target =>
    cases hlabel : a.label? target.label with
    | none => simp [hlabel]
    | some label => simp [hlabel, eq_comm]

/-- The second pass succeeds if every jump names a label of the assembly. -/
theorem link_eq_ok_iff {a : Assembly} {p : Program} :
    a.link = .ok p ↔
      (∀ x ∈ a.placed.toList, ∀ t ∈ x.instr.target?, a.label? t.label ≠ none) ∧ p = a.program := by
  unfold link program
  rw [bind_eq_ok_iff]
  simp only [mapM_eq_ok_iff fun x i => resolve_eq_ok_iff, pure_eq_ok, Except.ok.injEq]
  constructor
  · rintro ⟨code, ⟨hjumps, rfl⟩, rfl⟩
    exact ⟨hjumps, rfl⟩
  · rintro ⟨hjumps, rfl⟩
    exact ⟨_, ⟨hjumps, rfl⟩, rfl⟩

end Assembly

/-- A script compiles exactly if its lines can be read, no two declare one label, and each jump
names a declared label. -/
theorem compile_eq_ok_iff {set : InstrSet} {script : String} {p : Program} :
    Program.compile set script = .ok p ↔
      (∀ l ∈ Line.scan script.toList, l.Readable set) ∧
        ((Line.scan script.toList).filterMap (Line.label? set)).Nodup ∧
        (∀ x ∈ (Line.scan script.toList).filterMap (Line.placed? set), ∀ t ∈ x.instr.target?,
          t.label ∈ (Line.scan script.toList).filterMap (Line.label? set)) ∧
        p = (Assembly.ofLines set (Line.scan script.toList)).program := by
  unfold Program.compile
  rw [bind_eq_ok_iff]
  simp only [Assembly.foldlM_addLine_eq_ok_iff, Assembly.link_eq_ok_iff, Assembly.Fresh]
  constructor
  · rintro ⟨a, ⟨hread, ⟨hnodup, -⟩, ha⟩, hjumps, rfl⟩
    change a = Assembly.ofLines set _ at ha
    subst ha
    refine ⟨hread, hnodup, fun x hx t ht => ?_, rfl⟩
    rw [← Assembly.placed_ofLines] at hx
    exact Assembly.label?_ofLines_ne_none_iff.mp (hjumps x hx t ht)
  · rintro ⟨hread, hnodup, hjumps, rfl⟩
    refine ⟨Assembly.ofLines set _, ⟨hread, ⟨hnodup, fun name _ => rfl⟩, rfl⟩, fun x hx t ht => ?_, rfl⟩
    rw [Assembly.placed_ofLines] at hx
    exact Assembly.label?_ofLines_ne_none_iff.mpr (hjumps x hx t ht)

end StackScript
