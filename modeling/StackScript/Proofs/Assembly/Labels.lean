import StackScript.Proofs.Assembly.Reading
import StackScript.Proofs.Instr.Written

/-!
# Positions of labels

A label takes its position while the code grows, and jumps get it when all lines are read. Main
statement (`jump_position_of_compile`): in a compiled program every jump goes to where the line that
declares its label begins (`Program.BeginsAt`), and but for the positions of jumps the code is what
the first pass collected.
-/

namespace StackScript

/-- In the code, line `n` begins at the index `q`: the instructions before it are those of the lines
before `n`. -/
structure Program.BeginsAt (p : Program) (n q : Nat) : Prop where
  count : q = p.lines.toList.countP (· < n)
  le_size : q ≤ p.size
  le_iff : ∀ k m, p.line? k = some m → (q ≤ k ↔ n ≤ m)
  eq_size_iff : q = p.size ↔ ∀ m ∈ p.lines, m < n

/-- The target of the jump at an index. -/
def Program.target? (p : Program) (k : Nat) : Option Target := p.code[k]?.bind (·.target?)

/-! ### Where a line begins -/

section Cut

variable {before rest : List Nat} {n : Nat} (hbefore : ∀ m ∈ before, m < n) (hrest : ∀ m ∈ rest, n ≤ m)

include hbefore hrest

theorem countP_lt_append : (before ++ rest).countP (· < n) = before.length := by
  have hall : before.countP (· < n) = before.length := by simpa [List.countP_eq_length] using hbefore
  have hnone : rest.countP (· < n) = 0 := by simpa [List.countP_eq_zero] using hrest
  rw [List.countP_append, hall, hnone, Nat.add_zero]

theorem length_le_iff_of_getElem?_append {k m : Nat} (h : (before ++ rest)[k]? = some m) :
    before.length ≤ k ↔ n ≤ m := by
  by_cases hk : before.length ≤ k
  · rw [List.getElem?_append_right hk] at h
    simp [hk, hrest m (List.mem_of_getElem? h)]
  · rw [List.getElem?_append_left (by omega)] at h
    have hm := hbefore m (List.mem_of_getElem? h)
    omega

theorem length_eq_length_append_iff :
    before.length = (before ++ rest).length ↔ ∀ m ∈ before ++ rest, m < n := by
  constructor
  · intro hlength m hm
    have hnil : rest = [] := List.eq_nil_of_length_eq_zero (by simpa using hlength)
    exact hbefore m (by simpa [hnil] using hm)
  · intro hall
    have hnil : rest = [] := by
      refine List.eq_nil_iff_forall_not_mem.mpr fun m hm => ?_
      have hlt := hall m (by simp [hm])
      have hle := hrest m hm
      omega
    simp [hnil]

/-- Lines before `n`, and then lines from `n` on: line `n` begins between them. -/
theorem Program.beginsAt_of_lines_eq {p : Program} (hlines : p.lines.toList = before ++ rest)
    (hsize : p.lines.size = p.size) : p.BeginsAt n before.length where
  count := by rw [hlines, countP_lt_append hbefore hrest]
  le_size := by rw [← hsize, ← Array.length_toList, hlines, List.length_append]; omega
  le_iff k m h := by
    rw [line?, ← Array.getElem?_toList, hlines] at h
    exact length_le_iff_of_getElem?_append hbefore hrest h
  eq_size_iff := by
    simp only [← hsize, ← Array.length_toList, ← Array.mem_toList_iff, hlines]
    exact length_eq_length_append_iff hbefore hrest

end Cut

namespace Assembly

variable {set : InstrSet}

theorem size_program (a : Assembly) : a.program.lines.size = a.program.size := by
  simp [program, Program.size]

theorem exists_line_of_mem_placed {ls : List Line} {m : Nat}
    (h : m ∈ (ls.filterMap (Line.placed? set)).map (·.line)) : ∃ l ∈ ls, l.number = m := by
  obtain ⟨x, hx, rfl⟩ := List.mem_map.mp h
  obtain ⟨l, hl, hplaced⟩ := List.mem_filterMap.mp hx
  obtain ⟨i, -, rfl⟩ := Option.map_eq_some_iff.mp hplaced
  exact ⟨l, hl, rfl⟩

/-- Among lines in increasing order, one begins after the instructions of those before it. -/
theorem beginsAt_ofLines {before rest : List Line} {l : Line}
    (hsorted : (before ++ l :: rest).Pairwise (fun l l' => l.number < l'.number)) :
    (ofLines set (before ++ l :: rest)).program.BeginsAt l.number
      (before.filterMap (Line.placed? set)).length := by
  obtain ⟨-, hfrom, hbefore⟩ := List.pairwise_append.mp hsorted
  have hlow : ∀ m ∈ (before.filterMap (Line.placed? set)).map (·.line), m < l.number := by
    intro m hm
    obtain ⟨l', hl', rfl⟩ := exists_line_of_mem_placed hm
    exact hbefore l' hl' l (by simp)
  have hhigh : ∀ m ∈ ((l :: rest).filterMap (Line.placed? set)).map (·.line), l.number ≤ m := by
    intro m hm
    obtain ⟨l', hl', rfl⟩ := exists_line_of_mem_placed hm
    rcases List.mem_cons.mp hl' with rfl | hl'
    · exact Nat.le_refl _
    · exact Nat.le_of_lt ((List.pairwise_cons.mp hfrom).1 l' hl')
  have hlines : (ofLines set (before ++ l :: rest)).program.lines.toList =
      (before.filterMap (Line.placed? set)).map (·.line) ++
        ((l :: rest).filterMap (Line.placed? set)).map (·.line) := by
    rw [lines_program_ofLines, List.filterMap_append, List.map_append]
  simpa using Program.beginsAt_of_lines_eq hlow hhigh hlines (size_program _)

/-! ### What the second pass fills in -/

theorem target?_filled (a : Assembly) (i : Instr) :
    (a.filled i).target? =
      i.target?.map fun t => { t with position := (a.label? t.label).map (·.position) } := by
  cases i <;> rfl

/-- A jump of the program was collected with its label, and has the position of that label. -/
theorem target?_program {a : Assembly} {k : Nat} {t : Target} (h : a.program.target? k = some t) :
    (∃ x ∈ a.placed.toList, ∃ t' ∈ x.instr.target?, t'.label = t.label) ∧
      t.position = (a.label? t.label).map (·.position) := by
  obtain ⟨i, hi, ht⟩ := Option.bind_eq_some_iff.mp h
  -- An index into the code is one into what was collected, since filling in keeps the order.
  rw [← Array.getElem?_toList] at hi
  obtain ⟨x, hx, rfl⟩ := List.mem_map.mp (List.mem_of_getElem? hi)
  rw [target?_filled] at ht
  obtain ⟨t', ht', rfl⟩ := Option.map_eq_some_iff.mp ht
  exact ⟨⟨x, hx, t', ht', rfl⟩, rfl⟩

theorem withPosition_filled (a : Assembly) {i : Instr} (h : i.Unresolved) :
    (a.filled i).withPosition none = i := by
  cases i with
  | jump condition t =>
    have hposition : t.position = none := h t rfl
    cases t
    simp_all [filled, Instr.target?, Instr.withPosition]
  | _ => rfl

/-- The label of a line stands for where the line begins. -/
theorem beginsAt_label? {ls : List Line} (hsorted : ls.Pairwise (fun l l' => l.number < l'.number))
    (hnodup : (ls.filterMap (Line.label? set)).Nodup) {l : Line} (hl : l ∈ ls) {name : String}
    (hname : l.label? set = some name) :
    ∃ q, ((ofLines set ls).label? name).map (·.position) = some q ∧
      (ofLines set ls).program.BeginsAt l.number q := by
  -- Cut at the declaration: no line after it declares the name again, so its position stays.
  obtain ⟨before, rest, rfl⟩ := List.append_of_mem hl
  have hrest : name ∉ rest.filterMap (Line.label? set) := by
    rw [List.filterMap_append, List.filterMap_cons_some hname] at hnodup
    exact (List.nodup_cons.mp (List.nodup_append.mp hnodup).2.1).1
  rw [label?_ofLines_append hname hrest]
  exact ⟨_, rfl, beginsAt_ofLines hsorted⟩

end Assembly

namespace Line

/-- Instructions come from lines without positions. -/
theorem Readable.unresolved {set : InstrSet} {l : Line} {x : Placed} (h : l.Readable set)
    (hx : l.placed? set = some x) : x.instr.Unresolved := by
  obtain ⟨i, hi, rfl⟩ := Option.map_eq_some_iff.mp hx
  obtain ⟨mn, ops, -, e, -, hinst⟩ := h.writes hi
  exact (Kind.instantiate?_eq_some_iff.mp hinst).2.2

end Line

/-- A compiled program has a line for each instruction. -/
theorem Program.size_lines_of_compile {set : InstrSet} {script : String} {p : Program}
    (h : Program.compile set script = .ok p) : p.lines.size = p.size := by
  obtain ⟨-, -, -, rfl⟩ := compile_eq_ok_iff.mp h
  exact Assembly.size_program _

/-- But for the positions of jumps, a compiled program is what the first pass has collected. -/
theorem firstPass_of_compile {set : InstrSet} {script : String} {p : Program}
    (h : Program.compile set script = .ok p) :
    ∃ a : Assembly, (Line.scan script.toList).foldlM (Assembly.addLine set) {} = .ok a ∧
      p.code.toList.map (·.withPosition none) = a.placed.toList.map (·.instr) ∧
      p.lines.toList = a.placed.toList.map (·.line) := by
  obtain ⟨hread, hnodup, -, rfl⟩ := compile_eq_ok_iff.mp h
  refine ⟨Assembly.ofLines set (Line.scan script.toList), ?_, ?_, ?_⟩
  · exact Assembly.foldlM_addLine_eq_ok_iff.mpr ⟨hread, ⟨hnodup, fun name _ => rfl⟩, rfl⟩
  · rw [Assembly.code_program_ofLines, Assembly.placed_ofLines, List.map_map]
    refine List.map_congr_left fun x hx => ?_
    obtain ⟨l, hl, hplaced⟩ := List.mem_filterMap.mp hx
    exact Assembly.withPosition_filled _ ((hread l hl).unresolved hplaced)
  · rw [Assembly.lines_program_ofLines, Assembly.placed_ofLines]

/-- The label of a jump of a compiled program is declared on a line, and the jump goes to where that line
begins. -/
theorem beginsAt_of_target? {set : InstrSet} {script : String} {p : Program}
    (h : Program.compile set script = .ok p) {k : Nat} {t : Target} (ht : p.target? k = some t) :
    ∃ l ∈ Line.scan script.toList, l.label? set = some t.label ∧
      ∃ q, t.position = some q ∧ p.BeginsAt l.number q := by
  obtain ⟨-, hnodup, hjumps, rfl⟩ := compile_eq_ok_iff.mp h
  obtain ⟨⟨x, hx, t', ht', hlabel⟩, hposition⟩ := Assembly.target?_program ht
  rw [Assembly.placed_ofLines] at hx
  obtain ⟨l, hl, hname⟩ := List.mem_filterMap.mp (hlabel ▸ hjumps x hx t' ht')
  obtain ⟨q, hq, hbegins⟩ := Assembly.beginsAt_label? (Line.pairwise_number_scan _) hnodup hl hname
  exact ⟨l, hl, hname, q, hposition.trans hq, hbegins⟩

/-- In a compiled program, the label of each jump is declared on one line, and the jump goes to where
this line begins, as do all jumps to the label. The positions of jumps are all that the second pass
has changed. -/
theorem jump_position_of_compile {set : InstrSet} {script : String} {p : Program}
    (h : Program.compile set script = .ok p) :
    (∀ k t, p.target? k = some t →
      ∃ l ∈ Line.scan script.toList, l.Declares t.label ∧
        (∀ l' ∈ Line.scan script.toList, l'.Declares t.label → l' = l) ∧
        ∃ q, t.position = some q ∧ p.BeginsAt l.number q ∧
          ∀ k' t', p.target? k' = some t' → t'.label = t.label → t'.position = some q) ∧
      ∃ a : Assembly, (Line.scan script.toList).foldlM (Assembly.addLine set) {} = .ok a ∧
        p.code.toList.map (·.withPosition none) = a.placed.toList.map (·.instr) ∧
        p.lines.toList = a.placed.toList.map (·.line) := by
  refine ⟨fun k t hk => ?_, firstPass_of_compile h⟩
  obtain ⟨hread, hnodup, hjumps, rfl⟩ := compile_eq_ok_iff.mp h
  obtain ⟨⟨x, hx, t', ht', hlabel⟩, hposition⟩ := Assembly.target?_program hk
  rw [Assembly.placed_ofLines] at hx
  obtain ⟨l, hl, hname⟩ := List.mem_filterMap.mp (hlabel ▸ hjumps x hx t' ht')
  have hdeclares := (hread l hl).label?_eq_some_iff.mp hname
  obtain ⟨q, hq, hbegins⟩ := Assembly.beginsAt_label? (Line.pairwise_number_scan _) hnodup hl hname
  refine ⟨l, hl, hdeclares, ?_, q, hposition.trans hq, hbegins, ?_⟩
  · intro l' hl' hdeclares'
    exact (nodup_labels_iff hread).mp hnodup l' hl' l hl t.label hdeclares' hdeclares
  · intro k' t' hk' heq
    rw [(Assembly.target?_program hk').2, heq, hq]

/-- A jump ahead to a label after all instructions, with one back to the label of its own line. -/
theorem jump_position_of_compile_ahead :
    ∃ p, Program.compile .standard "again: jne end\njmp again // back\n\nend:" = .ok p ∧
      p.target? 0 = some ⟨"end", some 2⟩ ∧ p.target? 1 = some ⟨"again", some 0⟩ ∧
      ∃ l ∈ Line.scan "again: jne end\njmp again // back\n\nend:".toList,
        l.Declares "end" ∧ p.BeginsAt l.number 2 := by
  have h : Program.compile .standard "again: jne end\njmp again // back\n\nend:" =
      .ok ⟨#[.jump .truthy ⟨"end", some 2⟩, .jump .always ⟨"again", some 0⟩], #[1, 2]⟩ :=
    Fallible.toOption_eq_some_iff.mp (by decide +kernel)
  obtain ⟨l, hl, hdeclares, -, q, hq, hbegins, -⟩ := (jump_position_of_compile h).1 0 ⟨"end", some 2⟩ rfl
  cases hq
  exact ⟨_, h, rfl, rfl, l, hl, hdeclares, hbegins⟩

end StackScript
