import StackScript.Proofs.Assembly.Passes
import StackScript.Proofs.Grammar.Line
import StackScript.Proofs.Text.Line
import Mathlib.Data.List.Forall2

/-!
# Scripts of known lines

A script that is made of lines is read as those lines. If it is known what each of them tells (`Tells`),
then so is what the assembler takes from the script: its labels, its instructions, and where each label
stands. The lines that are needed are those of one instruction and those of one label. Main statement
(`compile_of_tells`): such a script compiles if no label is declared twice and every jump names a
declared label.
-/

namespace StackScript

open Grammar

/-- What a line tells: the label that it declares, and the instruction that it gives. -/
structure Clause where
  label : Option String := none
  instr : Option Instr := none

/-- The text can stand on a line, and tells `c` there. -/
structure Tells (set : InstrSet) (text : List Char) (c : Clause) : Prop where
  parse : Statement.parse set text = ⟨c.label, .ok c.instr⟩
  ne_nil : text ≠ []
  no_break : ∀ d ∈ text, Line.isBreak d = false

/-- The script with these lines. -/
def scriptOf (texts : List (List Char)) : String := String.ofList (texts.flatMap (· ++ ['\n']))

/-- The lines, numbered from `n`. -/
def Line.numbered (n : Nat) (texts : List (List Char)) : List Line :=
  (texts.zipIdx n).map fun x => ⟨x.2, x.1⟩

variable {set : InstrSet} {texts : List (List Char)} {clauses : List Clause} {n : Nat}

theorem Line.numbered_cons (text : List Char) :
    Line.numbered n (text :: texts) = ⟨n, text⟩ :: Line.numbered (n + 1) texts := rfl

theorem Line.numbered_append (texts' : List (List Char)) :
    Line.numbered n (texts ++ texts') =
      Line.numbered n texts ++ Line.numbered (n + texts.length) texts' := by
  simp [numbered, List.zipIdx_append]

/-! ### Texts without line breaks -/

theorem not_isBreak_of_any {cs : List Char} (h : cs.any Line.isBreak = false) :
    ∀ c ∈ cs, Line.isBreak c = false := by
  simpa using h

theorem not_isBreak_of_isIdentifierBody {c : Char} (h : Scan.isIdentifierBody c = true) :
    Line.isBreak c = false := by
  have hreturn : c ≠ '\r' := by
    rintro rfl
    exact absurd h (by decide)
  have hfeed : c ≠ '\n' := by
    rintro rfl
    exact absurd h (by decide)
  simp [Line.isBreak, hreturn, hfeed]

theorem not_isBreak_of_isDigit {c : Char} (h : c.isDigit = true) : Line.isBreak c = false :=
  not_isBreak_of_isIdentifierBody (isIdentifierBody_of_isAlphanum (Text.isAlphanum_iff.mpr (.inr h)))

theorem Numeral.no_break (n : Numeral) : ∀ c ∈ n.text, Line.isBreak c = false := by
  have hsign : n.sign.any Line.isBreak = false := by
    unfold sign
    split <;> decide
  have hpoint : n.point.any Line.isBreak = false := by
    unfold point
    split <;> decide
  intro c hc
  simp only [text, List.mem_append] at hc
  rcases hc with ((hc | hc) | hc) | hc
  · exact not_isBreak_of_any hsign c hc
  · exact not_isBreak_of_isDigit (n.whole_digits c hc)
  · exact not_isBreak_of_any hpoint c hc
  · exact not_isBreak_of_isDigit (n.places_digits c hc)

/-! ### Lines of one instruction or one label -/

theorem mnemonic_of_kind (k : Kind) : Mnemonic k.mnemonic.toList := by
  rcases k with _ | _ | _ | _ | (_ | _ | _ | _) | _ | (_ | _) | (_ | _) | (_ | _ | _) | _ <;>
    exact .cons (by decide) (List.all_eq_true.mp (by decide))

theorem Grammar.SpellsInstr.ne_nil {text : List Char} {mn : String} {ops : Operands}
    (h : SpellsInstr text mn ops) : text ≠ [] := by
  cases h with
  | plain hmn =>
    cases hmn
    simp
  | operands hmn _ _ _ =>
    cases hmn
    simp

/-- An instruction alone on a line. -/
theorem tells_of_spellsInstr {text : List Char} {i : Instr} (h : SpellsInstr text i.mnemonic i.operands)
    (hentry : ∃ e ∈ standardEntries, e.Accepts i.mnemonic i.operands) (hi : i.Unresolved)
    (hbreak : ∀ c ∈ text, Line.isBreak c = false) : Tells .standard text { instr := some i } where
  parse := by
    have hend : Ending [] := .mk Text.blanks_nil .absent
    have hline : SpellsLine text none (some (i.mnemonic, i.operands)) := by
      simpa using SpellsLine.mk Text.blanks_nil .absent Text.blanks_nil (.present h) hend
    exact parse_of_spellsLine hline (.some (standard_gives_iff.mpr ⟨hentry, rfl, rfl, hi⟩))
  ne_nil := h.ne_nil
  no_break := hbreak

/-- A label alone on a line. -/
theorem tells_declaration {name : String} (h : Identifier name.toList) :
    Tells set (name.toList ++ [':']) { label := some name } where
  parse := by
    have hend : Ending [] := .mk Text.blanks_nil .absent
    have hlabel : SpellsLabel (name.toList ++ [':']) (some name) := by
      simpa using SpellsLabel.present h
    have hline : SpellsLine (name.toList ++ [':']) (some name) none := by
      simpa using SpellsLine.mk Text.blanks_nil hlabel Text.blanks_nil .absent hend
    exact parse_of_spellsLine hline .none
  ne_nil := by simp
  no_break c hc := by
    rcases List.mem_append.mp hc with hc | hc
    · exact not_isBreak_of_isIdentifierBody (h.all_body c hc)
    · exact not_isBreak_of_any (show [':'].any Line.isBreak = false by decide) c hc

/-! ### What the assembler takes from the lines -/

section

variable (h : List.Forall₂ (Tells set) texts clauses)

include h

theorem scan_scriptOf : Line.scan (scriptOf texts).toList = Line.numbered 1 texts := by
  rw [scriptOf, String.toList_ofList, Line.scan]
  refine Line.scanFrom_flatMap_lineFeed ?_ 1
  induction h with
  | nil => simp
  | cons hfirst _ ih => exact List.forall_mem_cons.mpr ⟨⟨hfirst.ne_nil, hfirst.no_break⟩, ih⟩

theorem readable_of_tells : ∀ l ∈ Line.numbered n texts, l.Readable set := by
  induction h generalizing n with
  | nil => simp [Line.numbered]
  | @cons text c _ _ hfirst _ ih =>
    rw [Line.numbered_cons]
    exact List.forall_mem_cons.mpr ⟨⟨c.instr, by rw [hfirst.parse]⟩, ih⟩

theorem labels_of_tells : (Line.numbered n texts).filterMap (Line.label? set) = clauses.filterMap (·.label) := by
  induction h generalizing n with
  | nil => rfl
  | @cons text c _ _ hfirst _ ih =>
    have hlabel : (⟨n, text⟩ : Line).label? set = c.label := by rw [Line.label?, hfirst.parse]
    rw [Line.numbered_cons, List.filterMap_cons, List.filterMap_cons, hlabel, ih]

theorem placed_of_tells :
    (Line.numbered n texts).filterMap (Line.placed? set) =
      (clauses.zipIdx n).filterMap fun x => x.1.instr.map (Placed.mk · x.2) := by
  induction h generalizing n with
  | nil => rfl
  | @cons text c _ _ hfirst _ ih =>
    have hplaced : (⟨n, text⟩ : Line).placed? set = c.instr.map (Placed.mk · n) := by
      rw [Line.placed?, Line.instr?, hfirst.parse]
      rfl
    rw [Line.numbered_cons, List.zipIdx_cons, List.filterMap_cons, List.filterMap_cons, hplaced, ih]

theorem instrs_of_tells :
    ((Line.numbered n texts).filterMap (Line.placed? set)).map (·.instr) = clauses.filterMap (·.instr) := by
  have hinstr : ∀ x : Clause × Nat, (x.1.instr.map (Placed.mk · x.2)).map (·.instr) = x.1.instr := by
    rintro ⟨⟨label, _ | i⟩, k⟩ <;> rfl
  rw [placed_of_tells h, List.map_filterMap]
  simp only [hinstr]
  calc
    _ = ((clauses.zipIdx n).map Prod.fst).filterMap (·.instr) := List.filterMap_map.symm
    _ = clauses.filterMap (·.instr) := by rw [List.zipIdx_map_fst]

theorem code_of_tells :
    (Assembly.ofLines set (Line.numbered n texts)).program.code.toList =
      (clauses.filterMap (·.instr)).map (Assembly.ofLines set (Line.numbered n texts)).filled := by
  rw [Assembly.code_program_ofLines, ← instrs_of_tells h, List.map_map]
  rfl

/-- A label stands for the number of instructions before it. -/
theorem position_of_tells (hnodup : (clauses.filterMap (·.label)).Nodup) {before rest : List Clause} {c : Clause}
    {name : String} (hsplit : clauses = before ++ c :: rest) (hname : c.label = some name) :
    ((Assembly.ofLines set (Line.numbered n texts)).label? name).map (·.position) =
      some (before.filterMap (·.instr)).length := by
  subst hsplit
  -- The lines are cut where the clauses are.
  have hbefore := List.forall₂_take_append texts before (c :: rest) h
  have hfrom := List.forall₂_drop_append texts before (c :: rest) h
  rw [← List.take_append_drop before.length texts]
  generalize texts.take before.length = texts₁ at hbefore ⊢
  generalize texts.drop before.length = texts₂ at hfrom ⊢
  obtain ⟨text, texts₃, hfirst, hrest, rfl⟩ := List.forall₂_cons_right_iff.mp hfrom
  have hlabel : (⟨n + texts₁.length, text⟩ : Line).label? set = some name := by
    rw [Line.label?, hfirst.parse, hname]
  have hnew : name ∉ (Line.numbered (n + texts₁.length + 1) texts₃).filterMap (Line.label? set) := by
    rw [labels_of_tells hrest]
    rw [List.filterMap_append, List.filterMap_cons_some hname] at hnodup
    exact (List.nodup_cons.mp (List.nodup_append.mp hnodup).2.1).1
  rw [Line.numbered_append, Line.numbered_cons, Assembly.label?_ofLines_append hlabel hnew,
    ← instrs_of_tells hbefore, List.length_map]
  rfl

theorem compile_of_tells (hnodup : (clauses.filterMap (·.label)).Nodup)
    (hjumps : ∀ i ∈ clauses.filterMap (·.instr), ∀ t ∈ i.target?, t.label ∈ clauses.filterMap (·.label)) :
    Program.compile set (scriptOf texts) = .ok (Assembly.ofLines set (Line.numbered 1 texts)).program := by
  rw [compile_eq_ok_iff, scan_scriptOf h, labels_of_tells h]
  refine ⟨readable_of_tells h, hnodup, fun x hx => ?_, rfl⟩
  refine hjumps x.instr ?_
  rw [← instrs_of_tells h]
  exact List.mem_map_of_mem hx

end

end StackScript
