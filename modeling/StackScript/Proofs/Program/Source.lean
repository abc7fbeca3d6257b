import StackScript.Proofs.Assembly.Labels
import StackScript.Proofs.Assembly.Script
import StackScript.Proofs.Number.RoundTrip
import Mathlib.Data.List.Dedup

/-!
# The source of a program

A program is written out as a script: before each instruction the labels of the jumps that go there, and
the instruction as its text, without the position behind a jump. Main statement (`compile_source`): the
source of a compiled program compiles to the same code, if its numbers are finite.

What the operands of a compiled program can be is what the grammar spells, so their texts are operands
again (`SpellsOperand.writable`), and the labels of its jumps are identifiers. A label stands in the source
behind as many instructions as its position says (`exists_split_sourceClauses`), so each jump is given
its position back.
-/

namespace StackScript

open Grammar

/-! ### Writing out a program -/

/-- What stands behind a jump in its text. -/
def Target.mark (t : Target) : String :=
  match t.position with
  | some position => " (@" ++ indexText position ++ ")"
  | none => " (unresolved)"

namespace Instr

/-- What the text of an instruction has behind the instruction. -/
def mark (i : Instr) : String := (i.target?.map Target.mark).getD ""

/-- The text of an instruction, without the position of a jump. -/
def source (i : Instr) : List Char := i.text.toList.take (i.text.length - i.mark.length)

end Instr

/-- The lines of some code from the index `k` on, with the labels given for each index. -/
def sourceLines (labels : Nat → List String) (k : Nat) : List Instr → List (List Char)
  | [] => (labels k).map (·.toList ++ [':'])
  | i :: code => (labels k).map (·.toList ++ [':']) ++ i.source :: sourceLines labels (k + 1) code

namespace Program

/-- At each index, the labels of the jumps that go there: each once, in any order. -/
def LabelledBy (p : Program) (labels : Nat → List String) : Prop :=
  ∀ k, (labels k).Nodup ∧ ∀ name, name ∈ labels k ↔ ∃ i ∈ p.code, i.target? = some ⟨name, some k⟩

/-- The program as a script. -/
def source (p : Program) (labels : Nat → List String) : String :=
  scriptOf (sourceLines labels 0 p.code.toList)

end Program

/-- The operand is no infinite number and no NaN. -/
def Operand.isFinite : Operand → Bool
  | .immediate (.number x) => x.isFinite
  | _ => true

/-! ### Texts of operands -/

/-- The text of an operand is an operand again, and can stand on a line. -/
structure Operand.Writable (a : Operand) : Prop where
  spells : SpellsOperand a.text.toList a
  no_break : ∀ c ∈ a.text.toList, Line.isBreak c = false

theorem no_break_of_identifier {name : List Char} (h : Identifier name) : ∀ c ∈ name, Line.isBreak c = false :=
  fun c hc => not_isBreak_of_isIdentifierBody (h.all_body c hc)

/-- An operand that was read from a line, and is finite, can be written again. -/
theorem Grammar.SpellsOperand.writable {w : List Char} {a : Operand} (h : SpellsOperand w a)
    (hw : ∀ c ∈ w, Line.isBreak c = false) (hfinite : a.isFinite = true) : a.Writable := by
  cases h with
  | immediate hlit =>
    cases hlit with
    | boolean b _ =>
      have hspells : SpellsLiteral (Value.boolean b).text.toList (.boolean b) :=
        .boolean b (by cases b <;> decide)
      cases b with
      | true => exact ⟨.immediate hspells, not_isBreak_of_any (by decide)⟩
      | false => exact ⟨.immediate hspells, not_isBreak_of_any (by decide)⟩
    | number n =>
      obtain ⟨n', htext, hvalue⟩ := Number.exists_numeral_text_eq hfinite
      have htext' : (Operand.immediate (.number n.value)).text.toList = '#' :: n'.text := by
        simp [Operand.text, Value.literal, Value.text, htext]
      constructor
      · rw [htext', ← hvalue]
        exact .immediate (.number n')
      · rw [htext']
        exact List.forall_mem_cons.mpr ⟨by decide, n'.no_break⟩
    | @string cs hquote =>
      have htext : (Operand.immediate (.string (String.ofList cs))).text.toList =
          '#' :: (Scan.quote :: (cs ++ [Scan.quote])) := by
        simp [Operand.text, Value.literal, Scan.quote]
      constructor
      · rw [htext]
        exact .immediate (.string hquote)
      · rw [htext]
        exact hw
  | register hname =>
    constructor
    · simpa [Operand.text] using SpellsOperand.register hname
    · simpa [Operand.text] using ⟨by decide, no_break_of_identifier hname⟩
  | direct hname =>
    constructor
    · simpa [Operand.text] using SpellsOperand.direct hname
    · simpa [Operand.text] using no_break_of_identifier hname

/-! ### Texts of instructions -/

/-- Operands as they stand behind a mnemonic. -/
def Operands.written : Operands → List Char
  | ⟨some a, some b⟩ => ' ' :: (a.text.toList ++ ',' :: ' ' :: b.text.toList)
  | ⟨some a, none⟩ => ' ' :: a.text.toList
  | ⟨none, _⟩ => []

theorem Place.text_operand (d : Place) : d.operand.text = d.text := by
  cases d <;> rfl

theorem Target.text_eq (t : Target) : t.text = t.label ++ t.mark := rfl

namespace Instr

theorem text_eq (i : Instr) :
    i.text.toList = i.mnemonic.toList ++ i.operands.written ++ i.mark.toList := by
  cases i with
  | jump condition t =>
    simp [text, operands, Operands.written, mark, target?, Target.text_eq, Operand.text]
  | adjust delta register => simp [text, operands, Operands.written, mark, target?, Operand.text]
  | _ => simp [text, operands, Operands.written, mark, target?, Place.text_operand]

/-- The source of an instruction is its name and its operands. -/
theorem source_eq (i : Instr) : i.source = i.mnemonic.toList ++ i.operands.written := by
  have hlength : i.text.length - i.mark.length = (i.mnemonic.toList ++ i.operands.written).length := by
    rw [← String.length_toList, i.text_eq, List.length_append, String.length_toList, Nat.add_sub_cancel]
  rw [source, hlength, i.text_eq, List.take_left]

/-- Where there is no first operand there is no second. -/
theorem second_operands {i : Instr} (h : i.operands.first = none) : i.operands.second = none := by
  cases i <;> simp_all [operands]

theorem spells_source {i : Instr} (h : ∀ a ∈ i.operands.toList, a.Writable) :
    SpellsInstr i.source i.mnemonic i.operands := by
  have hmn : Mnemonic i.mnemonic.toList := mnemonic_of_kind i.kind
  have hgap : Text.Blanks [' '] := List.all_eq_true.mp (by decide)
  have hsecond := @second_operands i
  rw [source_eq]
  generalize i.operands = ops at h hsecond ⊢
  obtain ⟨_ | a, _ | b⟩ := ops
  · simpa [Operands.written] using SpellsInstr.plain hmn
  · cases hsecond rfl
  · have ha := (h a (by simp [Operands.toList])).spells
    simpa [Operands.written] using SpellsInstr.operands hmn hgap (.one ha) (by simp)
  · have ha := (h a (by simp [Operands.toList])).spells
    have hb := (h b (by simp [Operands.toList])).spells
    simpa [Operands.written] using SpellsInstr.operands hmn hgap (.two ha Text.blanks_nil hgap hb) (by simp)

theorem no_break_source {i : Instr} (h : ∀ a ∈ i.operands.toList, a.Writable) :
    ∀ c ∈ i.source, Line.isBreak c = false := by
  have hmn : Mnemonic i.mnemonic.toList := mnemonic_of_kind i.kind
  rw [source_eq]
  generalize i.operands = ops at h ⊢
  rw [List.forall_mem_append]
  refine ⟨no_break_of_identifier hmn.identifier, ?_⟩
  obtain ⟨_ | a, _ | b⟩ := ops
  · simp [Operands.written]
  · simp [Operands.written]
  · have ha := (h a (by simp [Operands.toList])).no_break
    exact List.forall_mem_cons.mpr ⟨by decide, ha⟩
  · have ha := (h a (by simp [Operands.toList])).no_break
    have hb := (h b (by simp [Operands.toList])).no_break
    refine List.forall_mem_cons.mpr ⟨by decide, List.forall_mem_append.mpr ⟨ha, ?_⟩⟩
    exact List.forall_mem_cons.mpr ⟨by decide, List.forall_mem_cons.mpr ⟨by decide, hb⟩⟩

end Instr

/-! ### What is in a compiled program -/

section Compiled

variable {script : String} {p : Program} (h : Program.compile .standard script = .ok p)

include h

/-- But for its position, an instruction of the program is the one of a line. -/
theorem exists_line_of_mem_code {i : Instr} (hi : i ∈ p.code) :
    ∃ l ∈ Line.scan script.toList, l.Readable .standard ∧ l.instr? .standard = some (i.withPosition none) := by
  obtain ⟨hread, -, -, rfl⟩ := compile_eq_ok_iff.mp h
  rw [← Array.mem_toList_iff, Assembly.code_program_ofLines] at hi
  obtain ⟨x, hx, rfl⟩ := List.mem_map.mp hi
  obtain ⟨l, hl, hplaced⟩ := List.mem_filterMap.mp hx
  obtain ⟨j, hj, rfl⟩ := Option.map_eq_some_iff.mp hplaced
  refine ⟨l, hl, hread l hl, ?_⟩
  rw [hj, Assembly.withPosition_filled _ ((hread l hl).unresolved hplaced)]

/-- An instruction of the program is written on a line, and the standard set has it. -/
theorem writes_of_mem_code {i : Instr} (hi : i ∈ p.code) :
    (∃ l ∈ Line.scan script.toList, l.Writes i.mnemonic i.operands) ∧
      ∃ e ∈ standardEntries, e.Accepts i.mnemonic i.operands := by
  obtain ⟨l, hl, hread, hinstr⟩ := exists_line_of_mem_code h hi
  obtain ⟨mn, ops, hwrites, hgives⟩ := hread.writes hinstr
  obtain ⟨hentry, hmn, hops, -⟩ := standard_gives_iff.mp hgives
  rw [Instr.mnemonic_withPosition] at hmn
  rw [Instr.operands_withPosition] at hops
  rw [hmn, hops]
  exact ⟨⟨l, hl, hwrites⟩, hentry⟩

/-- The operands of the program are spelt on the lines of the script. -/
theorem exists_spells_of_mem_operands {i : Instr} (hi : i ∈ p.code) {a : Operand} (ha : a ∈ i.operands.toList) :
    ∃ l ∈ Line.scan script.toList, ∃ w, w <:+: l.text ∧ SpellsOperand w a := by
  obtain ⟨⟨l, hl, hwrites⟩, -⟩ := writes_of_mem_code h hi
  exact ⟨l, hl, hwrites.exists_operand ha⟩

/-- The operands of the program can be written again if they are finite. -/
theorem writable_of_mem_code {i : Instr} (hi : i ∈ p.code) {a : Operand} (ha : a ∈ i.operands.toList)
    (hfinite : a.isFinite = true) : a.Writable := by
  obtain ⟨l, hl, w, hw, hspells⟩ := exists_spells_of_mem_operands h hi ha
  exact hspells.writable (fun c hc => Line.no_break_of_mem_scan hl c (hw.subset hc)) hfinite

/-- Jumps to one label go to one position, which is in the program or at its end. -/
theorem exists_position_of_compile :
    ∃ position : String → Option Nat, ∀ i ∈ p.code, ∀ t, i.target? = some t →
      t.position = position t.label ∧ ∃ k ≤ p.size, t.position = some k := by
  obtain ⟨-, -, -, rfl⟩ := compile_eq_ok_iff.mp h
  refine ⟨fun name => ((Assembly.ofLines .standard (Line.scan script.toList)).label? name).map (·.position), ?_⟩
  intro i hi t ht
  obtain ⟨k, hk⟩ := Array.mem_iff_getElem?.mp hi
  have htarget : (Assembly.ofLines .standard (Line.scan script.toList)).program.target? k = some t := by
    rw [Program.target?, hk]
    exact ht
  obtain ⟨l, -, -, q, hq, hbegins⟩ := beginsAt_of_target? h htarget
  exact ⟨(Assembly.target?_program htarget).2, q, hbegins.le_size, hq⟩

end Compiled

/-! ### What the source tells -/

/-- What lines tell that declare these labels. -/
def declarations (names : List String) : List Clause := names.map fun name => { label := some name }

theorem labels_declarations (names : List String) : (declarations names).filterMap (·.label) = names := by
  simp [declarations, List.filterMap_map]

theorem instrs_declarations (names : List String) : (declarations names).filterMap (·.instr) = [] := by
  simp [declarations, List.filterMap_map]

/-- What the lines of the source tell. -/
def sourceClauses (labels : Nat → List String) (k : Nat) : List Instr → List Clause
  | [] => declarations (labels k)
  | i :: code =>
    declarations (labels k) ++ { instr := some (i.withPosition none) } :: sourceClauses labels (k + 1) code

section Clauses

variable {labels : Nat → List String} {code : List Instr}

theorem labels_sourceClauses (k : Nat) :
    (sourceClauses labels k code).filterMap (·.label) = (List.range' k (code.length + 1)).flatMap labels := by
  induction code generalizing k with
  | nil => simp [sourceClauses, labels_declarations]
  | cons i code ih =>
    simp only [sourceClauses, List.filterMap_append, labels_declarations, List.filterMap_cons, ih,
      List.length_cons]
    rw [List.range'_succ (s := k), List.flatMap_cons]

theorem instrs_sourceClauses (k : Nat) :
    (sourceClauses labels k code).filterMap (·.instr) = code.map (·.withPosition none) := by
  induction code generalizing k with
  | nil => simp [sourceClauses, instrs_declarations]
  | cons i code ih =>
    simp only [sourceClauses, List.filterMap_append, instrs_declarations, List.filterMap_cons, ih,
      List.nil_append, List.map_cons]

/-- A label given for an index stands behind as many instructions. -/
theorem exists_split_sourceClauses {k d : Nat} {name : String} (hd : d ≤ code.length)
    (hname : name ∈ labels (k + d)) :
    ∃ before rest, sourceClauses labels k code = before ++ { label := some name } :: rest ∧
      (before.filterMap (·.instr)).length = d := by
  induction code generalizing k d with
  | nil =>
    obtain rfl := Nat.le_zero.mp hd
    obtain ⟨first, last, hsplit⟩ := List.append_of_mem hname
    refine ⟨declarations first, declarations last, ?_, by rw [instrs_declarations]; rfl⟩
    rw [Nat.add_zero] at hsplit
    simp [sourceClauses, hsplit, declarations]
  | cons i code ih =>
    cases d with
    | zero =>
      obtain ⟨first, last, hsplit⟩ := List.append_of_mem hname
      rw [Nat.add_zero] at hsplit
      refine ⟨declarations first, declarations last ++ { instr := some (i.withPosition none) } ::
        sourceClauses labels (k + 1) code, ?_, by rw [instrs_declarations]; rfl⟩
      simp [sourceClauses, hsplit, declarations]
    | succ d =>
      have hname' : name ∈ labels (k + 1 + d) := by rwa [Nat.add_assoc, Nat.add_comm 1 d]
      obtain ⟨before, rest, hsplit, hlength⟩ := ih (Nat.le_of_succ_le_succ hd) hname'
      refine ⟨declarations (labels k) ++ { instr := some (i.withPosition none) } :: before, rest, ?_, ?_⟩
      · rw [sourceClauses, hsplit, List.append_assoc, List.cons_append]
      · simp [instrs_declarations, hlength]

theorem forall_tells_sourceLines (k : Nat) (hlabels : ∀ k, ∀ name ∈ labels k, Identifier name.toList)
    (hcode : ∀ i ∈ code, Tells .standard i.source { instr := some (i.withPosition none) }) :
    List.Forall₂ (Tells .standard) (sourceLines labels k code) (sourceClauses labels k code) := by
  have hnames : ∀ k, List.Forall₂ (Tells .standard) ((labels k).map (·.toList ++ [':']))
      (declarations (labels k)) := by
    intro k
    rw [declarations, List.forall₂_map_left_iff, List.forall₂_map_right_iff, List.forall₂_same]
    exact fun name hname => tells_declaration (hlabels k name hname)
  induction code generalizing k with
  | nil => exact hnames k
  | cons i code ih =>
    obtain ⟨hi, hrest⟩ := List.forall_mem_cons.mp hcode
    exact List.rel_append (hnames k) (.cons hi (ih (k + 1) hrest))

end Clauses

/-! ### Compiling the source -/

namespace Instr

theorem target?_withPosition (i : Instr) (position : Option Nat) :
    (i.withPosition position).target? = i.target?.map fun t => { t with position } := by
  cases i <;> rfl

end Instr

theorem identifier_of_spells_direct {w : List Char} {name : String} (h : SpellsOperand w (.direct name)) :
    Identifier w := by
  cases h with
  | direct hname => exact hname

/-- A jump that is given the position it had is the jump it was. -/
theorem Assembly.filled_withPosition_none {a : Assembly} {i : Instr}
    (h : ∀ t, i.target? = some t → (a.label? t.label).map (·.position) = t.position) :
    a.filled (i.withPosition none) = i := by
  cases i with
  | jump condition t =>
    have ht := h t rfl
    simp only [Instr.withPosition, filled, Instr.target?]
    rw [ht]
  | _ => rfl

namespace Program.LabelledBy

variable {script : String} {p : Program} {labels : Nat → List String}
  (hlabels : p.LabelledBy labels) (h : Program.compile .standard script = .ok p)

include hlabels h

/-- No label is given twice. -/
theorem nodup : ((List.range' 0 (p.code.toList.length + 1)).flatMap labels).Nodup := by
  obtain ⟨position, hposition⟩ := exists_position_of_compile h
  have hat : ∀ k, ∀ name ∈ labels k, position name = some k := by
    intro k name hname
    obtain ⟨i, hi, ht⟩ := ((hlabels k).2 name).mp hname
    exact (hposition i hi _ ht).1.symm
  refine List.nodup_flatMap.mpr ⟨fun k _ => (hlabels k).1, ?_⟩
  refine List.Nodup.pairwise_of_forall_ne List.nodup_range' fun k _ k' _ hne name hk hk' => hne ?_
  have heq := hat k name hk
  rw [hat k' name hk'] at heq
  exact (Option.some.inj heq).symm

/-- The label of a jump is given for the position of the jump. -/
theorem exists_mem {i : Instr} (hi : i ∈ p.code) {t : Target} (ht : i.target? = some t) :
    ∃ k ≤ p.code.toList.length, t.position = some k ∧ t.label ∈ labels k := by
  obtain ⟨position, hposition⟩ := exists_position_of_compile h
  obtain ⟨-, k, hle, hk⟩ := hposition i hi t ht
  refine ⟨k, hle, hk, ((hlabels k).2 t.label).mpr ⟨i, hi, ?_⟩⟩
  rw [ht, ← hk]

end Program.LabelledBy

theorem Program.exists_labelledBy (p : Program) : ∃ labels, p.LabelledBy labels := by
  refine ⟨fun k => ((p.code.toList.filterMap Instr.target?).filterMap fun t =>
    if t.position = some k then some t.label else none).dedup, fun k => ⟨List.nodup_dedup _, fun name => ?_⟩⟩
  simp only [List.mem_dedup, List.mem_filterMap, Option.ite_none_right_eq_some, Option.some.injEq,
    Array.mem_toList_iff]
  constructor
  · rintro ⟨t, ⟨i, hi, ht⟩, hposition, rfl⟩
    exact ⟨i, hi, by rw [ht, ← hposition]⟩
  · rintro ⟨i, hi, ht⟩
    exact ⟨_, ⟨i, hi, ht⟩, rfl, rfl⟩

/-- The source of a compiled program, with the labels listed in any way, compiles to the same code,
positions of jumps included, if the numbers in it are finite. -/
theorem compile_source {script : String} {p : Program} (h : Program.compile .standard script = .ok p)
    (hfinite : ∀ i ∈ p.code, ∀ a ∈ i.operands.toList, a.isFinite = true) :
    (∃ labels, p.LabelledBy labels) ∧
      ∀ labels, p.LabelledBy labels →
        ∃ q, Program.compile .standard (p.source labels) = .ok q ∧ q.code = p.code := by
  refine ⟨p.exists_labelledBy, fun labels hlabels => ?_⟩
  have hwritable : ∀ i ∈ p.code, ∀ a ∈ i.operands.toList, a.Writable :=
    fun i hi a ha => writable_of_mem_code h hi ha (hfinite i hi a ha)
  have hcode : ∀ i ∈ p.code.toList, Tells .standard i.source { instr := some (i.withPosition none) } := by
    intro i hi
    rw [Array.mem_toList_iff] at hi
    refine tells_of_spellsInstr ?_ ?_ i.unresolved_withPosition_none (Instr.no_break_source (hwritable i hi))
    · rw [i.mnemonic_withPosition, i.operands_withPosition]
      exact Instr.spells_source (hwritable i hi)
    · rw [i.mnemonic_withPosition, i.operands_withPosition]
      exact (writes_of_mem_code h hi).2
  have hnames : ∀ k, ∀ name ∈ labels k, Identifier name.toList := by
    intro k name hname
    obtain ⟨i, hi, ht⟩ := ((hlabels k).2 name).mp hname
    have hmem : Operand.direct name ∈ i.operands.toList := by rw [Instr.operands_of_target? ht]; simp
    exact identifier_of_spells_direct (hwritable i hi _ hmem).spells
  have htells := forall_tells_sourceLines 0 hnames hcode
  have hnodup : ((sourceClauses labels 0 p.code.toList).filterMap (·.label)).Nodup := by
    rw [labels_sourceClauses]
    exact hlabels.nodup h
  have hjumps : ∀ i ∈ (sourceClauses labels 0 p.code.toList).filterMap (·.instr), ∀ t ∈ i.target?,
      t.label ∈ (sourceClauses labels 0 p.code.toList).filterMap (·.label) := by
    rw [labels_sourceClauses, instrs_sourceClauses]
    intro j hj t ht
    obtain ⟨i, hi, rfl⟩ := List.mem_map.mp hj
    rw [Instr.target?_withPosition, Option.mem_def] at ht
    obtain ⟨t', ht', rfl⟩ := Option.map_eq_some_iff.mp ht
    obtain ⟨k, hle, -, hmem⟩ := hlabels.exists_mem h (Array.mem_toList_iff.mp hi) ht'
    exact List.mem_flatMap.mpr ⟨k, List.mem_range'_1.mpr ⟨Nat.zero_le k, by omega⟩, hmem⟩
  refine ⟨_, compile_of_tells htells hnodup hjumps, ?_⟩
  have hfilled : ∀ i ∈ p.code.toList,
      (Assembly.ofLines .standard (Line.numbered 1 (sourceLines labels 0 p.code.toList))).filled
        (i.withPosition none) = i := by
    intro i hi
    refine Assembly.filled_withPosition_none fun t ht => ?_
    obtain ⟨k, hle, hk, hmem⟩ := hlabels.exists_mem h (Array.mem_toList_iff.mp hi) ht
    rw [← Nat.zero_add k] at hmem
    obtain ⟨before, rest, hsplit, hlength⟩ := exists_split_sourceClauses hle hmem
    rw [position_of_tells htells hnodup hsplit rfl, hlength, hk]
  rw [← Array.toList_inj, code_of_tells htells, instrs_sourceClauses, List.map_map]
  calc
    _ = p.code.toList.map id := List.map_congr_left hfilled
    _ = p.code.toList := List.map_id _

/-- A string with a comma and two slashes in it, the negative zero, and labels with the names of
instructions, one of them behind the last instruction. -/
theorem compile_source_mixed :
    ∃ p, Program.compile .standard
        "  add: cmp $x , #-0.0 // sign\r\nmov y,#\"a, // $b\"\n\njne nop\nje add\n\nnop:" = .ok p ∧
      p.source (fun k => if k = 0 then ["add"] else if k = 4 then ["nop"] else []) =
        "add:\ncmp $x, #-0\nmov y, #\"a, // $b\"\njne nop\nje add\nnop:\n" ∧
      ∃ q, Program.compile .standard "add:\ncmp $x, #-0\nmov y, #\"a, // $b\"\njne nop\nje add\nnop:\n" = .ok q ∧
        q.code = p.code := by
  let p : Program :=
    ⟨#[.compare (.register "x") (.immediate (.number (.ofMagnitude true 0))),
        .move (.direct "y") (.immediate (.string "a, // $b")), .jump .truthy ⟨"nop", some 4⟩,
        .jump .falsy ⟨"add", some 0⟩], #[1, 2, 4, 5]⟩
  have hcompile : Program.compile .standard
      "  add: cmp $x , #-0.0 // sign\r\nmov y,#\"a, // $b\"\n\njne nop\nje add\n\nnop:" = .ok p :=
    Fallible.toOption_eq_some_iff.mp (by decide +kernel)
  have hsource : p.source (fun k => if k = 0 then ["add"] else if k = 4 then ["nop"] else []) =
      "add:\ncmp $x, #-0\nmov y, #\"a, // $b\"\njne nop\nje add\nnop:\n" := by
    decide +kernel
  have hlabels : p.LabelledBy fun k => if k = 0 then ["add"] else if k = 4 then ["nop"] else [] := by
    have htargets : ∀ name k, (∃ i ∈ p.code, i.target? = some ⟨name, some k⟩) ↔
        name = "nop" ∧ k = 4 ∨ name = "add" ∧ k = 0 := by
      simp [p, Instr.target?, eq_comm]
    intro k
    simp only [htargets]
    by_cases hzero : k = 0
    · simp [hzero]
    · by_cases hfour : k = 4
      · simp [hfour]
      · simp [hzero, hfour]
  refine ⟨p, hcompile, hsource, ?_⟩
  rw [← hsource]
  exact (compile_source hcompile (by decide +kernel)).2 _ hlabels

end StackScript
