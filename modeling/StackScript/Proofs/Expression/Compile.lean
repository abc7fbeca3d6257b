import StackScript.Proofs.Assembly.Script
import StackScript.Proofs.Expression.Basic

/-!
# Compiling an expression

The lines of an expression declare no label and give no jump, so they compile one by one, and the
instructions are the code of the expression (`compile_script`).
-/

namespace StackScript

open Grammar

theorem Assembly.filled_of_target?_eq_none (a : Assembly) {i : Instr} (h : i.target? = none) :
    a.filled i = i := by
  rw [filled, h]

/-! ### The lines of an expression -/

theorem Literal.no_break (l : Literal) : ∀ c ∈ l.text, Line.isBreak c = false := by
  cases l with
  | number n => exact n.no_break
  | boolean b => cases b <;> exact not_isBreak_of_any (by decide)
  | string cs _ hbreak =>
    intro c hc
    simp only [text, List.mem_cons, List.mem_append, List.not_mem_nil, or_false] at hc
    rcases hc with rfl | hc | rfl
    · rfl
    · exact hbreak c hc
    · rfl

theorem Literal.spells (l : Literal) : SpellsLiteral l.text l.value := by
  cases l with
  | number n => exact .number n
  | boolean b => exact .boolean b (by cases b <;> decide)
  | string cs hquote _ => exact .string hquote

theorem tells_push (l : Literal) :
    Tells .standard ("push #".toList ++ l.text) { instr := some (.push (.immediate l.value)) } := by
  have hmn : Mnemonic "push".toList := mnemonic_of_kind .push
  have hgap : Text.Blanks " ".toList := List.all_eq_true.mp (by decide)
  have hspells : SpellsInstr ("push #".toList ++ l.text) "push" { first := some (.immediate l.value) } := by
    simpa using SpellsInstr.operands hmn hgap (.one (.immediate l.spells)) (by simp)
  refine tells_of_spellsInstr hspells ⟨⟨"push", .imm1, .push⟩, by decide, rfl, .inl rfl⟩
    (by simp [Instr.Unresolved, Instr.target?]) ?_
  intro c hc
  rcases List.mem_append.mp hc with hc | hc
  · exact not_isBreak_of_any (show "push #".toList.any Line.isBreak = false by decide) c hc
  · exact l.no_break c hc

theorem tells_negate : Tells .standard "neg".toList { instr := some .negate } :=
  tells_of_spellsInstr (.plain (mnemonic_of_kind .negate)) (by decide)
    (by simp [Instr.Unresolved, Instr.target?]) (not_isBreak_of_any (by decide))

theorem tells_binary (op : BinaryOp) :
    Tells .standard op.instr.mnemonic.toList { instr := some op.instr } := by
  rcases op with (_ | _ | _ | _) | (_ | _)
  all_goals
    exact tells_of_spellsInstr (.plain (mnemonic_of_kind _)) (by decide)
      (by simp [Instr.Unresolved, Instr.target?, BinaryOp.instr]) (not_isBreak_of_any (by decide))

namespace Expr

theorem forall_tells (e : Expr) :
    List.Forall₂ (Tells .standard) e.lines (e.code.map fun i => { instr := some i }) := by
  induction e with
  | literal l => exact .cons (tells_push l) .nil
  | neg e ih =>
    rw [lines, code, List.map_append]
    exact List.rel_append ih (.cons tells_negate .nil)
  | binary op lhs rhs ihl ihr =>
    rw [lines, code, List.map_append, List.map_append]
    exact List.rel_append (List.rel_append ihl ihr) (.cons (tells_binary op) .nil)

theorem target?_of_mem_code {e : Expr} : ∀ i ∈ e.code, i.target? = none := by
  induction e with
  | literal l => simp [code, Instr.target?]
  | neg e ih => simpa [code, or_imp, forall_and, Instr.target?] using ih
  | binary op lhs rhs ihl ihr =>
    have hop : op.instr.target? = none := by cases op <;> rfl
    simp only [code, List.mem_append, List.mem_singleton]
    rintro i ((hi | hi) | rfl)
    · exact ihl i hi
    · exact ihr i hi
    · exact hop

theorem instrs_code (e : Expr) :
    (e.code.map fun i => ({ instr := some i } : Clause)).filterMap (·.instr) = e.code := by
  simp [List.filterMap_map]

theorem program_lines (e : Expr) :
    (Assembly.ofLines .standard (Line.numbered 1 e.lines)).program =
      ⟨e.code.toArray, (List.range' 1 e.code.length).toArray⟩ := by
  have hcode : (Assembly.ofLines .standard (Line.numbered 1 e.lines)).program.code.toList = e.code := by
    rw [code_of_tells e.forall_tells, instrs_code]
    calc
      _ = e.code.map id :=
        List.map_congr_left fun i hi => Assembly.filled_of_target?_eq_none _ (target?_of_mem_code i hi)
      _ = e.code := List.map_id _
  have hlines : (Assembly.ofLines .standard (Line.numbered 1 e.lines)).program.lines.toList =
      List.range' 1 e.code.length := by
    have hplaced : (Line.numbered 1 e.lines).filterMap (Line.placed? .standard) =
        (e.code.zipIdx 1).map fun x => ⟨x.1, x.2⟩ := by
      rw [placed_of_tells e.forall_tells]
      simp [List.zipIdx_map, List.filterMap_map]
    rw [Assembly.lines_program_ofLines, hplaced, List.map_map]
    exact List.zipIdx_map_snd 1 e.code
  rw [← hlines, ← hcode]

/-- The script of an expression compiles to its code. -/
theorem compile_script (e : Expr) :
    Program.compile .standard e.script = .ok ⟨e.code.toArray, (List.range' 1 e.code.length).toArray⟩ := by
  have hlabels : (e.code.map fun i => ({ instr := some i } : Clause)).filterMap (·.label) = [] := by
    simp [List.filterMap_map]
  rw [← program_lines]
  refine compile_of_tells e.forall_tells (by rw [hlabels]; exact List.nodup_nil) ?_
  rw [instrs_code]
  intro i hi t ht
  rw [target?_of_mem_code i hi] at ht
  cases ht

end Expr
end StackScript
