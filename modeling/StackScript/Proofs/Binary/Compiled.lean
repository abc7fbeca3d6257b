import StackScript.Proofs.Binary.RoundTrip
import StackScript.Proofs.Program.Source

/-!
# Compiled programs can be stored

Whatever a compiled program holds was written in its script: names and strings are parts of it, there are no more
instructions and lines than characters, and a jump goes no further than the end of the code. So if the size of
the script in bytes is a machine natural, all lengths, positions and lines of the program are
(`storable_of_compile`).
-/

namespace StackScript

open Grammar

/-! ### Sizes of texts -/

theorem utf8ByteSize_le_of_part {w cs : List Char} (h : w <:+: cs) :
    (String.ofList w).utf8ByteSize ≤ (String.ofList cs).utf8ByteSize := by
  obtain ⟨front, back, rfl⟩ := h
  rw [String.ofList_append, String.ofList_append, String.utf8ByteSize_append, String.utf8ByteSize_append]
  omega

theorem length_le_utf8ByteSize (cs : List Char) : cs.length ≤ (String.ofList cs).utf8ByteSize := by
  induction cs with
  | nil => exact Nat.zero_le _
  | cons c cs ih =>
    have hsplit : String.ofList (c :: cs) = String.singleton c ++ String.ofList cs := by
      rw [← String.toList_inj]
      simp
    have hpos := c.utf8Size_pos
    rw [hsplit, String.utf8ByteSize_append, String.utf8ByteSize_singleton, List.length_cons]
    omega

/-! ### What is written in a script -/

/-- An operand that is spelled within a text takes no more bytes than the text. -/
theorem Grammar.SpellsOperand.storable {w cs : List Char} {a : Operand} (h : SpellsOperand w a) (hw : w <:+: cs)
    (hsize : (String.ofList cs).utf8ByteSize < 2 ^ 64) : a.Storable := by
  have hpart : ∀ {v : List Char}, v <:+: w → (String.ofList v).utf8ByteSize < 2 ^ 64 := fun hv =>
    Nat.lt_of_le_of_lt (utf8ByteSize_le_of_part (hv.trans hw)) hsize
  cases h with
  | immediate hlit =>
    cases hlit with
    | boolean b _ => exact trivial
    | number n => exact trivial
    | @string cs _ => exact hpart ⟨['#', Scan.quote], [Scan.quote], by simp⟩
  | register _ => exact hpart (List.suffix_cons _ _).isInfix
  | direct _ => exact hpart (List.infix_refl w)

theorem Instr.storable_of_operands {i : Instr} (h : ∀ a ∈ i.operands.toList, a.Storable)
    (hposition : ∀ t ∈ i.target?, ∀ n ∈ t.position, n < 2 ^ 64) : i.Storable := by
  cases i with
  | push src => exact h src (by simp [operands, Operands.toList])
  | pop dst =>
    have hdst := h dst.operand (by simp [operands, Operands.toList])
    cases dst <;> exact hdst
  | move dst src =>
    have hdst := h dst.operand (by simp [operands, Operands.toList])
    have hsrc := h src (by simp [operands, Operands.toList])
    cases dst <;> exact ⟨hdst, hsrc⟩
  | compare lhs rhs =>
    exact ⟨h lhs (by simp [operands, Operands.toList]), h rhs (by simp [operands, Operands.toList])⟩
  | adjust delta register => exact h (.register register) (by simp [operands, Operands.toList])
  | jump condition t =>
    exact ⟨h (.direct t.label) (by simp [operands, Operands.toList]), hposition t rfl⟩
  | _ => exact trivial

/-- A program that is compiled from a script whose size is a machine natural can be stored. -/
theorem storable_of_compile {script : String} {p : Program} (h : Program.compile .standard script = .ok p)
    (hsize : script.utf8ByteSize < 2 ^ 64) : p.Storable := by
  have hscript : (String.ofList script.toList).utf8ByteSize < 2 ^ 64 := by rwa [String.ofList_toList]
  have hlength : script.toList.length < 2 ^ 64 :=
    Nat.lt_of_le_of_lt (length_le_utf8ByteSize script.toList) hscript
  have hlines : p.lines.toList.length ≤ script.toList.length ∧ ∀ n ∈ p.lines, n < 2 ^ 64 := by
    obtain ⟨-, -, -, rfl⟩ := compile_eq_ok_iff.mp h
    constructor
    · rw [Assembly.lines_program_ofLines, List.length_map]
      exact Nat.le_trans (List.length_filterMap_le _ _) (Line.length_scanFrom_le 1 script.toList)
    · intro n hn
      rw [← Array.mem_toList_iff, Assembly.lines_program_ofLines] at hn
      obtain ⟨l, hl, rfl⟩ := Assembly.exists_line_of_mem_placed hn
      have hnumber := Line.number_lt_add_length hl
      omega
  have hcode : p.size < 2 ^ 64 := by
    rw [← Program.size_lines_of_compile h, ← Array.length_toList]
    exact Nat.lt_of_le_of_lt hlines.1 hlength
  obtain ⟨position, hposition⟩ := exists_position_of_compile h
  refine ⟨hcode, by rw [Program.size_lines_of_compile h]; exact hcode, fun i hi => ?_, hlines.2⟩
  apply Instr.storable_of_operands
  · intro a ha
    obtain ⟨l, hl, w, hw, hspells⟩ := exists_spells_of_mem_operands h hi ha
    exact hspells.storable (hw.trans (Line.infix_of_mem_scanFrom hl)) hscript
  · intro t ht n hn
    obtain ⟨-, k, hk, hkeq⟩ := hposition i hi t ht
    rw [Option.mem_def, hkeq] at hn
    cases hn
    exact Nat.lt_of_le_of_lt hk hcode

end StackScript
