import StackScript.Proofs.Assembly.Diagnosis

/-!
# The first fault is reported

The first pass stops at the first line with a fault, so it has not seen what comes after (`compile_eq_error_of_lines`),
and it has found nothing wrong with the lines before. Labels that no line declares come up only when there is no such
line, for then it is known what the lines declare. Main statement (`first_fault_reported`).
-/

namespace StackScript

open Fallible

variable {set : InstrSet} {script : String} {e : CompileError}

/-! ### Lines up to a line -/

namespace Line

variable {cs : List Char} {before after : List Line} {l : Line}

theorem number_lt_of_split (hscan : scan cs = before ++ l :: after) :
    (∀ l' ∈ before, l'.number < l.number) ∧ ∀ l' ∈ after, l.number < l'.number := by
  have hpairwise := pairwise_number_scan cs
  rw [hscan] at hpairwise
  obtain ⟨-, hafter, hbefore⟩ := List.pairwise_append.mp hpairwise
  constructor
  · intro l' hl'
    exact hbefore l' hl' l List.mem_cons_self
  · exact (List.pairwise_cons.mp hafter).1

theorem takeWhile_le_of_split (hscan : scan cs = before ++ l :: after) :
    (scan cs).takeWhile (·.number ≤ l.number) = before ++ [l] := by
  obtain ⟨hbefore, hafter⟩ := number_lt_of_split hscan
  have hstop : after.takeWhile (·.number ≤ l.number) = [] := by
    cases after with
    | nil => rfl
    | cons l' after =>
      apply List.takeWhile_cons_of_neg
      simpa using hafter l' List.mem_cons_self
  rw [hscan, List.takeWhile_append_of_pos, List.takeWhile_cons_of_pos, hstop]
  · simp
  · intro l' hl'
    simpa using Nat.le_of_lt (hbefore l' hl')

theorem takeWhile_lt_of_split (hscan : scan cs = before ++ l :: after) :
    (scan cs).takeWhile (·.number ≤ l.number - 1) = before := by
  obtain ⟨hbefore, -⟩ := number_lt_of_split hscan
  have hpos : 1 ≤ l.number := by
    apply number_le_of_mem_scanFrom
    show l ∈ scan cs
    rw [hscan]
    exact List.mem_append_cons_self
  rw [hscan, List.takeWhile_append_of_pos, List.takeWhile_cons_of_neg, List.append_nil]
  · simp only [decide_eq_true_eq]
    omega
  · intro l' hl'
    exact decide_eq_true (Nat.le_sub_one_of_lt (hbefore l' hl'))

end Line

/-! ### The two kinds of errors -/

/-- An error that is not about an undeclared label is that of a line, behind lines without fault. -/
theorem exists_faulty_line (hfail : Program.compile set script = .error e)
    (hcause : ∀ name, e.cause ≠ .undefinedLabel name) :
    ∃ before l after, Line.scan script.toList = before ++ l :: after ∧ Line.Accepted set before ∧
      e.line = l.number ∧ l.HasFault set before e.cause := by
  rcases compile_eq_error_iff.mp hfail with hline | ⟨-, _, x, _, t, -, -, -, -, rfl⟩
  · exact hline
  · exact absurd rfl (hcause t.label)

/-- What comes behind the line of the error does not matter. -/
theorem compile_eq_error_of_lines (hfail : Program.compile set script = .error e)
    (hcause : ∀ name, e.cause ≠ .undefinedLabel name) {script' : String}
    (hlines : (Line.scan script'.toList).takeWhile (·.number ≤ e.line) =
      (Line.scan script.toList).takeWhile (·.number ≤ e.line)) : Program.compile set script' = .error e := by
  obtain ⟨before, l, after, hscan, haccepted, hline, hfault⟩ := exists_faulty_line hfail hcause
  rw [hline, Line.takeWhile_le_of_split hscan] at hlines
  apply compile_eq_error_iff.mpr
  left
  refine ⟨before, l, (Line.scan script'.toList).dropWhile (·.number ≤ l.number), ?_, haccepted, hline, hfault⟩
  calc Line.scan script'.toList
      = before ++ [l] ++ (Line.scan script'.toList).dropWhile (·.number ≤ l.number) := by
        rw [← hlines, List.takeWhile_append_dropWhile]
    _ = before ++ l :: (Line.scan script'.toList).dropWhile (·.number ≤ l.number) := by
        rw [List.append_assoc, List.singleton_append]

/-- Lines without fault make a program, or have a jump to a label that none of them declares. -/
theorem compile_of_accepted (h : Line.Accepted set (Line.scan script.toList)) :
    (∃ p, Program.compile set script = .ok p) ∨
      ∃ line name, Program.compile set script = .error ⟨line, .undefinedLabel name⟩ := by
  have hpass := Assembly.foldlM_addLine_eq_ok_iff_accepted.mpr ⟨h, rfl⟩
  unfold Program.compile
  rw [hpass, ok_bind]
  cases hlink : (Assembly.ofLines set (Line.scan script.toList)).link with
  | ok p => exact .inl ⟨p, rfl⟩
  | error e =>
    obtain ⟨_, x, _, t, -, -, -, -, rfl⟩ := Assembly.link_eq_error_iff.mp hlink
    exact .inr ⟨x.line, t.label, rfl⟩

/-- A line by itself is never found to name an undeclared label. -/
theorem Line.HasFault.ne_undefinedLabel {l : Line} {before : List Line} {cause : Cause}
    (h : l.HasFault set before cause) (name : String) : cause ≠ .undefinedLabel name := by
  rintro rfl
  cases h with
  | unreadable _ hfault => cases (Line.foundIn_of_parse hfault).not_onLabels

/-- The first fault in a script is the one reported. If it is not an undeclared label, then the text before its
line compiles or has an undeclared label, and every text that has the same lines up to this one, with their
breaks or with others, has the same error. If it is an undeclared label, then no line has a fault, no line
declares the label, and the error is that of the first jump whose label no line declares. -/
theorem first_fault_reported (set : InstrSet) (script : String) (e : CompileError)
    (hfail : Program.compile set script = .error e) :
    ((∀ name, e.cause ≠ .undefinedLabel name) →
      ((∃ p, Program.compile set (String.ofList (Line.first (e.line - 1) script.toList)) = .ok p) ∨
        ∃ line name, Program.compile set (String.ofList (Line.first (e.line - 1) script.toList)) =
          .error ⟨line, .undefinedLabel name⟩) ∧
      (∀ script', Line.first e.line script'.toList = Line.first e.line script.toList →
        Program.compile set script' = .error e) ∧
      ∀ script', (Line.scan script'.toList).takeWhile (·.number ≤ e.line) =
          (Line.scan script.toList).takeWhile (·.number ≤ e.line) → Program.compile set script' = .error e) ∧
    ∀ name, e.cause = .undefinedLabel name →
      Line.Accepted set (Line.scan script.toList) ∧ (∀ l ∈ Line.scan script.toList, ¬l.Declares name) ∧
        ∃ before x after t, (Line.scan script.toList).filterMap (Line.placed? set) = before ++ x :: after ∧
          x.line = e.line ∧ x.instr.target? = some t ∧ t.label = name ∧
          ∀ y ∈ before, ∀ t ∈ y.instr.target?, ∃ l ∈ Line.scan script.toList, l.Declares t.label := by
  constructor
  · intro hcause
    refine ⟨?_, ?_, fun script' => compile_eq_error_of_lines hfail hcause⟩
    · obtain ⟨before, l, after, hscan, haccepted, hline, -⟩ := exists_faulty_line hfail hcause
      apply compile_of_accepted
      rw [String.toList_ofList, Line.scan_first, hline, Line.takeWhile_lt_of_split hscan]
      exact haccepted
    · intro script' hfirst
      apply compile_eq_error_of_lines hfail hcause
      rw [← Line.scan_first, ← Line.scan_first, hfirst]
  · intro name hcause
    rcases compile_eq_error_iff.mp hfail with
      ⟨_, l, _, -, -, -, hfault⟩ | ⟨haccepted, before, x, after, t, hplaced, hbefore, ht, hlabel, rfl⟩
    · exact absurd hcause (hfault.ne_undefinedLabel name)
    · obtain rfl : t.label = name := Cause.undefinedLabel.inj hcause
      simp only [mem_labels_iff haccepted.readable] at hbefore hlabel
      refine ⟨haccepted, ?_, before, x, after, t, hplaced, rfl, ht, rfl, hbefore⟩
      intro l hl hdeclares
      exact hlabel ⟨l, hl, hdeclares⟩

/-- A jump to a label that is not declared, and then a label that is declared twice. The second is reported,
whatever comes behind it; without its line it is the first. -/
theorem first_fault_reported_duplicate :
    let script := "jmp far\nx: nop\r\nx: add\n"
    let front := "jmp far\nx: nop\r\n"
    (∀ rest, Program.compile .standard (script ++ rest) = .error ⟨3, .duplicateLabel "x"⟩) ∧
      Line.first 2 script.toList = front.toList ∧
      Program.compile .standard front = .error ⟨1, .undefinedLabel "far"⟩ ∧
      ∀ l ∈ Line.scan front.toList, ¬l.Declares "far" := by
  intro script front
  have hscript : Program.compile .standard script = .error ⟨3, .duplicateLabel "x"⟩ := by decide +kernel
  have hfront : Program.compile .standard front = .error ⟨1, .undefinedLabel "far"⟩ := by decide +kernel
  have hfirst (cs : List Char) : Line.first 3 ("jmp far\nx: nop\r\nx: add\n".toList ++ cs) =
      Line.first 3 "jmp far\nx: nop\r\nx: add\n".toList := rfl
  refine ⟨?_, by decide +kernel, hfront, ?_⟩
  · intro rest
    apply ((first_fault_reported .standard script _ hscript).1 fun name => nofun).2.1
    rw [String.toList_append]
    exact hfirst rest.toList
  · exact ((first_fault_reported .standard front _ hfront).2 "far" rfl).2.1

end StackScript
