import StackScript.Proofs.Assembly.Reading
import Mathlib.Data.List.Induction
import Mathlib.Tactic.MkIffOfInductiveProp

/-!
# Lines put together

When lines are put behind others, their labels and instructions are what they were, and the positions of
their labels are raised by the number of instructions before them (`position?_append`). What makes a program
of lines (`Line.Linkable`) is on their texts and not on their numbers. Main statement (`compile_append`): two
scripts that share no label compile to the code of the one and the raised code of the other.
-/

namespace StackScript

/-- The instruction with `d` lines put above it. -/
def Placed.below (d : Nat) (x : Placed) : Placed := { x with line := x.line + d }

/-- The instruction with the position of its target, if it has one, raised by `d`. -/
def Instr.raised (d : Nat) (i : Instr) : Instr :=
  i.withPosition ((i.target?.bind (·.position)).map (· + d))

namespace Line

variable {set : InstrSet} (d : Nat)

theorem placed?_eq_some {l : Line} {i : Instr} (h : l.instr? set = some i) : l.placed? set = some ⟨i, l.number⟩ := by
  rw [placed?, h]
  rfl

theorem placed?_below (l : Line) : (l.below d).placed? set = (l.placed? set).map (Placed.below d) := by
  show ((l.instr? set).map _) = ((l.instr? set).map _).map _
  rw [Option.map_map]
  rfl

theorem labels_map_below (ls : List Line) :
    (ls.map (below d)).filterMap (label? set) = ls.filterMap (label? set) := by
  rw [List.filterMap_map]
  rfl

theorem placed_map_below (ls : List Line) :
    (ls.map (below d)).filterMap (placed? set) = (ls.filterMap (placed? set)).map (Placed.below d) := by
  rw [List.filterMap_map, List.map_filterMap]
  exact List.filterMap_congr fun l _ => placed?_below d l

end Line

namespace Assembly

variable {set : InstrSet}

/-- The position of a label. -/
def position? (a : Assembly) (name : String) : Option Nat := (a.label? name).map (·.position)

theorem position?_after (a : Assembly) (l : Line) (name : String) :
    (a.after set l).position? name = if l.label? set = some name then some a.placed.size else a.position? name := by
  rw [position?, label?_after]
  split <;> rfl

theorem ofLines_concat (ls : List Line) (l : Line) :
    ofLines set (ls ++ [l]) = (ofLines set ls).after set l := by
  simp [ofLines]

/-- The latest declaration counts, and behind other lines it stands higher by their instructions. -/
theorem position?_append (ls ls' : List Line) (name : String) :
    (ofLines set (ls ++ ls')).position? name =
      (((ofLines set ls').position? name).map (· + (ls.filterMap (Line.placed? set)).length)).or
        ((ofLines set ls).position? name) := by
  -- The assembler adds lines at the end, so it is the last line that the induction takes off.
  induction ls' using List.reverseRecOn with
  | nil =>
    rw [List.append_nil]
    rfl
  | append_singleton ls' l ih =>
    rw [← List.append_assoc, ofLines_concat, ofLines_concat, position?_after, position?_after, ih]
    split
    · simp [size_placed_ofLines, Nat.add_comm]
    · rfl

theorem position?_map_below (d : Nat) (ls : List Line) (name : String) :
    (ofLines set (ls.map (Line.below d))).position? name = (ofLines set ls).position? name := by
  induction ls using List.reverseRecOn with
  | nil => rfl
  | append_singleton ls l ih =>
    rw [List.map_append, List.map_singleton, ofLines_concat, ofLines_concat, position?_after, position?_after, ih]
    simp only [size_placed_ofLines, Line.placed_map_below, List.length_map]
    rfl

theorem position?_eq_none_iff {ls : List Line} {name : String} :
    (ofLines set ls).position? name = none ↔ name ∉ ls.filterMap (Line.label? set) := by
  rw [position?, Option.map_eq_none_iff, ← label?_ofLines_ne_none_iff, not_not]

/-- A label has a position if some line declares it. -/
theorem exists_position?_eq_some_iff {ls : List Line} {name : String} :
    (∃ q, (ofLines set ls).position? name = some q) ↔ name ∈ ls.filterMap (Line.label? set) := by
  rw [← Option.ne_none_iff_exists', ne_eq, position?_eq_none_iff, not_not]

/-- Labels stand among the instructions or behind them. -/
theorem position?_le {ls : List Line} {name : String} {q : Nat} (h : (ofLines set ls).position? name = some q) :
    q ≤ (ls.filterMap (Line.placed? set)).length := by
  induction ls using List.reverseRecOn generalizing q with
  | nil => cases h
  | append_singleton ls l ih =>
    rw [ofLines_concat, position?_after] at h
    rw [List.filterMap_append, List.length_append]
    split at h
    · cases h
      rw [size_placed_ofLines]
      exact Nat.le_add_right _ _
    · exact Nat.le_add_right_of_le (ih h)

/-! ### Filling in positions -/

theorem filled_eq_of_position?_eq {a b : Assembly} {i : Instr}
    (h : ∀ t ∈ i.target?, b.position? t.label = a.position? t.label) : b.filled i = a.filled i := by
  unfold filled
  cases ht : i.target? with
  | none => rfl
  | some t => exact congrArg i.withPosition (h t ht)

/-- If labels stand higher by `d`, then so do the goals of jumps. -/
theorem filled_eq_raised {a b : Assembly} {i : Instr} {d : Nat}
    (h : ∀ t ∈ i.target?, b.position? t.label = (a.position? t.label).map (· + d)) :
    b.filled i = (a.filled i).raised d := by
  cases i with
  | jump condition t => exact congrArg (Instr.withPosition (.jump condition t)) (h t rfl)
  | _ => rfl

/-! ### Programs of lines put together -/

theorem code_program_append (ls ls' : List Line) :
    (ofLines set (ls ++ ls')).program.code.toList =
      (ls.filterMap (Line.placed? set)).map ((ofLines set (ls ++ ls')).filled ·.instr) ++
        (ls'.filterMap (Line.placed? set)).map ((ofLines set (ls ++ ls')).filled ·.instr) := by
  rw [code_program_ofLines, List.filterMap_append, List.map_append]

theorem code_program_append_map_below (d : Nat) (ls ls' : List Line) :
    (ofLines set (ls ++ ls'.map (Line.below d))).program.code = (ofLines set (ls ++ ls')).program.code := by
  have hfilled : ∀ i, (ofLines set (ls ++ ls'.map (Line.below d))).filled i = (ofLines set (ls ++ ls')).filled i := by
    intro i
    refine filled_eq_of_position?_eq fun t _ => ?_
    rw [position?_append, position?_append, position?_map_below]
  apply Array.toList_inj.mp
  rw [code_program_append, code_program_append, Line.placed_map_below, List.map_map]
  simp only [hfilled]
  rfl

theorem lines_program_append_map_below (d : Nat) (ls ls' : List Line) :
    (ofLines set (ls ++ ls'.map (Line.below d))).program.lines =
      (ofLines set ls).program.lines ++ (ofLines set ls').program.lines.map (· + d) := by
  apply Array.toList_inj.mp
  rw [Array.toList_append, Array.toList_map, lines_program_ofLines, lines_program_ofLines, lines_program_ofLines,
    List.filterMap_append, List.map_append, Line.placed_map_below, List.map_map, List.map_map]
  rfl

end Assembly

/-! ### Lines that make a program -/

/-- The lines make a program: all can be read, no two declare one label, and each jump names a label that
is declared. -/
@[mk_iff]
structure Line.Linkable (set : InstrSet) (ls : List Line) : Prop where
  readable : ∀ l ∈ ls, l.Readable set
  nodup : (ls.filterMap (Line.label? set)).Nodup
  declared : ∀ x ∈ ls.filterMap (Line.placed? set), ∀ t ∈ x.instr.target?, t.label ∈ ls.filterMap (Line.label? set)

theorem compile_eq_ok_iff_linkable {set : InstrSet} {script : String} {p : Program} :
    Program.compile set script = .ok p ↔
      Line.Linkable set (Line.scan script.toList) ∧ p = (Assembly.ofLines set (Line.scan script.toList)).program := by
  rw [compile_eq_ok_iff]
  constructor
  · rintro ⟨hread, hnodup, hjumps, rfl⟩
    exact ⟨⟨hread, hnodup, hjumps⟩, rfl⟩
  · rintro ⟨⟨hread, hnodup, hjumps⟩, rfl⟩
    exact ⟨hread, hnodup, hjumps, rfl⟩

namespace Line.Linkable

variable {set : InstrSet} {ls ls' : List Line}

/-- It is on the texts alone whether lines make a program. -/
theorem append_map_below_iff {d : Nat} : Linkable set (ls ++ ls'.map (below d)) ↔ Linkable set (ls ++ ls') := by
  have hread (l : Line) : (l.below d).Readable set ↔ l.Readable set := Iff.rfl
  have hinstr (x : Placed) : (x.below d).instr = x.instr := rfl
  simp only [linkable_iff, List.filterMap_append, labels_map_below, placed_map_below, List.mem_append, or_imp,
    forall_and, List.forall_mem_map, hread, hinstr]

/-- Lines that share no label make a program if each part does. -/
theorem append (h : Linkable set ls) (h' : Linkable set ls')
    (hlabels : ∀ name ∈ ls.filterMap (label? set), name ∉ ls'.filterMap (label? set)) :
    Linkable set (ls ++ ls') where
  readable := List.forall_mem_append.mpr ⟨h.readable, h'.readable⟩
  nodup := by
    rw [List.filterMap_append]
    refine List.nodup_append.mpr ⟨h.nodup, h'.nodup, ?_⟩
    rintro name hname _ hname' rfl
    exact hlabels name hname hname'
  declared := by
    rw [List.filterMap_append, List.filterMap_append, List.forall_mem_append]
    constructor
    · intro x hx t ht
      exact List.mem_append_left _ (h.declared x hx t ht)
    · intro x hx t ht
      exact List.mem_append_right _ (h'.declared x hx t ht)

/-- A line without a label and without a jump can be put in anywhere. -/
theorem insert (h : Linkable set (ls ++ ls')) {l : Line} {i : Instr} (hread : l.Readable set)
    (hlabel : l.label? set = none) (hinstr : l.instr? set = some i) (hi : i.target? = none) :
    Linkable set (ls ++ [l] ++ ls') := by
  have hplaced := placed?_eq_some hinstr
  have hlabels : (ls ++ [l] ++ ls').filterMap (label? set) = (ls ++ ls').filterMap (label? set) := by
    simp [hlabel]
  refine ⟨?_, hlabels ▸ h.nodup, ?_⟩
  · intro l' hl'
    have hmem : l' = l ∨ l' ∈ ls ++ ls' := by grind
    rcases hmem with rfl | hmem
    · exact hread
    · exact h.readable l' hmem
  · intro x hx t ht
    have hmem : x = ⟨i, l.number⟩ ∨ x ∈ (ls ++ ls').filterMap (placed? set) := by grind
    rcases hmem with rfl | hmem
    · cases hi.symm.trans ht
    · rw [hlabels]
      exact h.declared x hmem t ht

end Line.Linkable

/-! ### Scripts put together -/

theorem Line.scan_toList_append {A : String} (h : Line.Closed A.toList) (B : String) :
    Line.scan (A ++ B).toList =
      Line.scan A.toList ++ (Line.scan B.toList).map (Line.below (Line.breaks A.toList)) := by
  rw [String.toList_append, Line.scan_append h]

namespace Assembly

variable {set : InstrSet} {ls ls' : List Line} (hls : Line.Linkable set ls) (hls' : Line.Linkable set ls')
  (hlabels : ∀ name ∈ ls.filterMap (Line.label? set), name ∉ ls'.filterMap (Line.label? set))

include hls hls' hlabels

theorem code_program_append_of_linkable :
    (ofLines set (ls ++ ls')).program.code =
      (ofLines set ls).program.code ++
        (ofLines set ls').program.code.map (Instr.raised (ofLines set ls).program.size) := by
  apply Array.toList_inj.mp
  rw [Array.toList_append, Array.toList_map, code_program_append, code_program_ofLines, code_program_ofLines,
    List.map_map]
  congr 1
  · -- No label of the first lines is declared again below.
    refine List.map_congr_left fun x hx => filled_eq_of_position?_eq fun t ht => ?_
    have hnone := position?_eq_none_iff.mpr (hlabels _ (hls.declared x hx t ht))
    rw [position?_append, hnone]
    rfl
  · refine List.map_congr_left fun x hx => filled_eq_raised fun t ht => ?_
    obtain ⟨q, hq⟩ := exists_position?_eq_some_iff.mpr (hls'.declared x hx t ht)
    rw [position?_append, hq, Program.size, ← Array.length_toList, code_program_ofLines, List.length_map]
    rfl

end Assembly

/-- Scripts that compile and share no label compile when they are put together. The code of the second
follows that of the first, with its jumps raised. -/
theorem compile_append {set : InstrSet} {A B : String} {pA pB : Program}
    (hA : Program.compile set A = .ok pA) (hB : Program.compile set B = .ok pB) (hclosed : Line.Closed A.toList)
    (hlabels : ∀ name ∈ (Line.scan A.toList).filterMap (Line.label? set),
      name ∉ (Line.scan B.toList).filterMap (Line.label? set)) :
    ∃ p, Program.compile set (A ++ B) = .ok p ∧
      p.code = pA.code ++ pB.code.map (Instr.raised pA.size) ∧
      p.lines = pA.lines ++ pB.lines.map (· + Line.breaks A.toList) := by
  obtain ⟨hlsA, rfl⟩ := compile_eq_ok_iff_linkable.mp hA
  obtain ⟨hlsB, rfl⟩ := compile_eq_ok_iff_linkable.mp hB
  have hscan := Line.scan_toList_append hclosed B
  refine ⟨_, compile_eq_ok_iff_linkable.mpr ⟨?_, rfl⟩, ?_, ?_⟩
  · rw [hscan, Line.Linkable.append_map_below_iff]
    exact hlsA.append hlsB hlabels
  · rw [hscan, Assembly.code_program_append_map_below, Assembly.code_program_append_of_linkable hlsA hlsB hlabels]
  · rw [hscan, Assembly.lines_program_append_map_below]

end StackScript
