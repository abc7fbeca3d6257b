import StackScript.Proofs.Assembly.Passes

/-!
# Where compilation fails

Both passes stop at the first step that fails. In the first pass this is a line that cannot be read or declares
a label for the second time (`Line.HasFault`), in the second pass it is a jump to a label that no line declares.
Main statement (`compile_eq_error_iff`): a script fails to compile exactly if it has such a line, with only
good lines before it, or if all its lines are good and it has such a jump, with only good jumps before it.
-/

namespace StackScript

open Fallible

namespace Line

/-- The first pass takes the lines: all can be read, and no two declare one label. -/
structure Accepted (set : InstrSet) (ls : List Line) : Prop where
  readable : ∀ l ∈ ls, l.Readable set
  nodup : (ls.filterMap (label? set)).Nodup

/-- What the first pass finds wrong with a line behind others. A label that is declared for the second time is
found before a fault in the rest of the line. -/
inductive HasFault (set : InstrSet) (before : List Line) (l : Line) : Cause → Prop where
  | duplicate {name : String} (declared : l.label? set = some name) (taken : name ∈ before.filterMap (label? set)) :
      HasFault set before l (.duplicateLabel name)
  | unreadable {cause : Cause} (fresh : ∀ name ∈ l.label? set, name ∉ before.filterMap (label? set))
      (fault : (Statement.parse set l.text).instr = .error cause) : HasFault set before l cause

end Line

namespace Assembly

variable {set : InstrSet} {e : CompileError}

theorem foldlM_addLine_eq_ok_iff_accepted {ls : List Line} {a : Assembly} :
    ls.foldlM (addLine set) {} = .ok a ↔ Line.Accepted set ls ∧ a = ofLines set ls := by
  rw [foldlM_addLine_eq_ok_iff]
  constructor
  · intro ⟨hread, hfresh, ha⟩
    exact ⟨⟨hread, hfresh.1⟩, ha⟩
  · intro ⟨haccepted, ha⟩
    exact ⟨haccepted.readable, ⟨haccepted.nodup, fun _ _ => rfl⟩, ha⟩

theorem addStatement_eq_error_iff {a : Assembly} {line : Nat} {label : Option String}
    {instr : Except Cause (Option Instr)} {cause : Cause} :
    a.addStatement line ⟨label, instr⟩ = .error cause ↔
      (∃ name, label = some name ∧ a.label? name ≠ none ∧ cause = .duplicateLabel name) ∨
        (∀ name ∈ label, a.label? name = none) ∧ instr = .error cause := by
  cases label with
  | none =>
    cases instr with
    | error cause' => simp [addStatement]
    | ok i? => cases i? <;> simp [addStatement]
  | some name =>
    cases hname : a.label? name with
    | some first => simp [addStatement, declare, hname, eq_comm]
    | none =>
      cases instr with
      | error cause' => simp [addStatement, declare, hname]
      | ok i? => cases i? <;> simp [addStatement, declare, hname]

/-- How a line fails that comes behind others. -/
theorem addLine_ofLines_eq_error_iff {before : List Line} {l : Line} :
    (ofLines set before).addLine set l = .error e ↔ e.line = l.number ∧ l.HasFault set before e.cause := by
  obtain ⟨line, cause⟩ := e
  have hstatement : Statement.parse set l.text = ⟨l.label? set, (Statement.parse set l.text).instr⟩ := rfl
  unfold addLine
  rw [mapError_eq_error_iff, Statement.ofText_eq, hstatement]
  simp only [addStatement_eq_error_iff, label?_ofLines_ne_none_iff, CompileError.mk.injEq]
  constructor
  · rintro ⟨_, ⟨name, hlabel, htaken, rfl⟩ | ⟨hfresh, hfault⟩, rfl, rfl⟩
    · exact ⟨rfl, .duplicate hlabel htaken⟩
    · refine ⟨rfl, .unreadable ?_ hfault⟩
      intro name hname htaken
      exact label?_ofLines_ne_none_iff.mpr htaken (hfresh name hname)
  · rintro ⟨rfl, hfault⟩
    cases hfault with
    | duplicate hlabel htaken => exact ⟨_, .inl ⟨_, hlabel, htaken, rfl⟩, rfl, rfl⟩
    | unreadable hfresh hfault =>
      refine ⟨cause, .inr ⟨?_, hfault⟩, rfl, rfl⟩
      intro name hname
      apply Classical.byContradiction
      intro hne
      exact hfresh name hname (label?_ofLines_ne_none_iff.mp hne)

theorem resolve_eq_error_iff {a : Assembly} {x : Placed} :
    a.resolve x = .error e ↔
      ∃ t, x.instr.target? = some t ∧ a.label? t.label = none ∧ e = ⟨x.line, .undefinedLabel t.label⟩ := by
  unfold resolve
  cases htarget : x.instr.target? with
  | none => simp
  | some target =>
    cases hlabel : a.label? target.label with
    | none => simp [hlabel, eq_comm]
    | some label => simp [hlabel]

/-- The second pass fails at the first jump to a label that is not in the assembly. -/
theorem link_eq_error_iff {a : Assembly} :
    a.link = .error e ↔
      ∃ before x after t, a.placed.toList = before ++ x :: after ∧
        (∀ y ∈ before, ∀ t ∈ y.instr.target?, a.label? t.label ≠ none) ∧
        x.instr.target? = some t ∧ a.label? t.label = none ∧ e = ⟨x.line, .undefinedLabel t.label⟩ := by
  unfold link
  rw [bind_eq_error_iff, mapM_eq_error_iff]
  constructor
  · rintro (⟨before, x, after, hplaced, hbefore, hx⟩ | ⟨code, -, hcode⟩)
    · obtain ⟨t, ht, hlabel, rfl⟩ := resolve_eq_error_iff.mp hx
      refine ⟨before, x, after, t, hplaced, ?_, ht, hlabel, rfl⟩
      intro y hy
      obtain ⟨i, hi⟩ := hbefore y hy
      exact (resolve_eq_ok_iff.mp hi).1
    · cases hcode
  · rintro ⟨before, x, after, t, hplaced, hbefore, ht, hlabel, rfl⟩
    refine .inl ⟨before, x, after, hplaced, ?_, resolve_eq_error_iff.mpr ⟨t, ht, hlabel, rfl⟩⟩
    intro y hy
    exact ⟨_, resolve_eq_ok_iff.mpr ⟨hbefore y hy, rfl⟩⟩

end Assembly

/-- A script fails to compile at the first line that has a fault, or, if there is none, at the first jump to a
label that no line declares. -/
theorem compile_eq_error_iff {set : InstrSet} {script : String} {e : CompileError} :
    Program.compile set script = .error e ↔
      (∃ before l after, Line.scan script.toList = before ++ l :: after ∧ Line.Accepted set before ∧
        e.line = l.number ∧ l.HasFault set before e.cause) ∨
      (Line.Accepted set (Line.scan script.toList) ∧
        ∃ before x after t, (Line.scan script.toList).filterMap (Line.placed? set) = before ++ x :: after ∧
          (∀ y ∈ before, ∀ t ∈ y.instr.target?,
            t.label ∈ (Line.scan script.toList).filterMap (Line.label? set)) ∧
          x.instr.target? = some t ∧ t.label ∉ (Line.scan script.toList).filterMap (Line.label? set) ∧
          e = ⟨x.line, .undefinedLabel t.label⟩) := by
  unfold Program.compile
  rw [bind_eq_error_iff, foldlM_eq_error_iff]
  simp only [Assembly.foldlM_addLine_eq_ok_iff_accepted, Assembly.link_eq_error_iff]
  apply or_congr
  · constructor
    · rintro ⟨before, l, after, _, hscan, ⟨haccepted, rfl⟩, hl⟩
      exact ⟨before, l, after, hscan, haccepted, Assembly.addLine_ofLines_eq_error_iff.mp hl⟩
    · rintro ⟨before, l, after, hscan, haccepted, hl⟩
      exact ⟨before, l, after, _, hscan, ⟨haccepted, rfl⟩, Assembly.addLine_ofLines_eq_error_iff.mpr hl⟩
  · generalize Line.scan script.toList = ls
    simp only [← Assembly.placed_ofLines, ← Assembly.label?_ofLines_ne_none_iff, ne_eq, Classical.not_not]
    constructor
    · rintro ⟨_, ⟨haccepted, rfl⟩, hlink⟩
      exact ⟨haccepted, hlink⟩
    · rintro ⟨haccepted, hlink⟩
      exact ⟨_, ⟨haccepted, rfl⟩, hlink⟩

end StackScript
