import StackScript.Proofs.Assembly.Joined
import StackScript.Proofs.Assembly.Script
import StackScript.Proofs.Machine.Relocation

/-!
# Inserted instructions

A line that only says `nop` can be put in anywhere in a script. The instructions behind it move by one, and
with them the labels that are declared behind it; a label right before it now stands for the `nop`. So a
jump to the place of insertion may or may not pass the `nop`, and this is all the difference: main statement
(`nop_line_inserted`).
-/

namespace StackScript

open Run

/-- Where a jump to `k` goes when an instruction is put in at `q`: to where the instruction at `k` is now,
but a jump to `q` may also go to what was put in. -/
def Program.Around (q k k' : Nat) : Prop := k' = opened q 1 k ∨ k = q ∧ k' = q

theorem Program.around_zero (q : Nat) : Around q 0 0 := by
  cases q with
  | zero => exact .inr ⟨rfl, rfl⟩
  | succ q => exact .inl rfl

theorem Program.around_next (q k : Nat) : Around q (k + 1) (opened q 1 k + 1) := by
  unfold Around opened
  grind

/-! ### A line put in -/

namespace Assembly

variable {set : InstrSet}

theorem moved_filled {To : Nat → Nat → Prop} {a b : Assembly} {i : Instr}
    (h : ∀ name, Option.Rel To (a.position? name) (b.position? name)) : (a.filled i).Moved To (b.filled i) := by
  cases i with
  | jump condition target => exact .jump (h target.label)
  | _ => exact .plain rfl

section

variable (ls ls' : List Line) {l : Line} {i : Instr} (hlabel : l.label? set = none) (hinstr : l.instr? set = some i)

include hlabel hinstr

theorem position?_insert (name : String) :
    (ofLines set (ls ++ [l] ++ ls')).position? name =
      (((ofLines set ls').position? name).map (· + ((ls.filterMap (Line.placed? set)).length + 1))).or
        ((ofLines set ls).position? name) := by
  have hplaced := Line.placed?_eq_some hinstr
  rw [position?_append, ofLines_concat, position?_after, if_neg (by simp [hlabel])]
  simp [hplaced]

/-- Labels before the line keep their positions, those behind it are raised by one. -/
theorem around_position?_insert (name : String) :
    Option.Rel (Program.Around (ls.filterMap (Line.placed? set)).length)
      ((ofLines set (ls ++ ls')).position? name) ((ofLines set (ls ++ [l] ++ ls')).position? name) := by
  rw [position?_insert ls ls' hlabel hinstr, position?_append]
  cases (ofLines set ls').position? name with
  | some k =>
    apply Option.Rel.some
    left
    rw [Program.opened, if_pos (Nat.le_add_left _ k), Nat.add_assoc]
  | none =>
    cases hk : (ofLines set ls).position? name with
    | none => exact .none
    | some k =>
      apply Option.Rel.some
      have hle := position?_le hk
      unfold Program.Around Program.opened
      grind

omit hlabel in
theorem code_program_insert (hi : i.target? = none) (d : Nat) :
    (ofLines set (ls ++ [l] ++ ls'.map (Line.below d))).program.code.toList =
      (ls.filterMap (Line.placed? set)).map ((ofLines set (ls ++ [l] ++ ls')).filled ·.instr) ++
        ([i] ++ (ls'.filterMap (Line.placed? set)).map ((ofLines set (ls ++ [l] ++ ls')).filled ·.instr)) := by
  have hfilled : (ofLines set (ls ++ [l] ++ ls')).filled i = i := by rw [filled, hi]
  rw [code_program_append_map_below, code_program_append, List.filterMap_append,
    List.filterMap_cons_some (Line.placed?_eq_some hinstr), List.map_append, List.append_assoc]
  show _ ++ ([(ofLines set (ls ++ [l] ++ ls')).filled i] ++ _) = _
  rw [hfilled]

omit hlabel in
theorem lines_program_insert (d : Nat) :
    (ofLines set (ls ++ [l] ++ ls'.map (Line.below d))).program.lines.toList =
      (ofLines set ls).program.lines.toList ++
        ([l.number] ++ (ofLines set ls').program.lines.toList.map (· + d)) := by
  rw [lines_program_append_map_below, Array.toList_append, Array.toList_map, lines_program_ofLines (ls ++ [l]),
    lines_program_ofLines ls, List.filterMap_append, List.filterMap_cons_some (Line.placed?_eq_some hinstr),
    List.map_append, List.append_assoc]
  rfl

/-- The line makes room for one instruction. -/
theorem opens_insert (hi : i.target? = none) (d : Nat) :
    (ofLines set (ls ++ ls'.map (Line.below d))).program.Opens
      (ofLines set (ls ++ [l] ++ ls'.map (Line.below (d + 1)))).program
      (ls.filterMap (Line.placed? set)).length 1 1 (Program.Around (ls.filterMap (Line.placed? set)).length) := by
  have hmoved (xs : List Placed) :
      List.Forall₂ (Instr.Moved (Program.Around (ls.filterMap (Line.placed? set)).length))
        (xs.map ((ofLines set (ls ++ ls')).filled ·.instr))
        (xs.map ((ofLines set (ls ++ [l] ++ ls')).filled ·.instr)) := by
    rw [List.forall₂_map_left_iff, List.forall₂_map_right_iff, List.forall₂_same]
    intro x _
    exact moved_filled (around_position?_insert ls ls' hlabel hinstr)
  have hcode : (ofLines set (ls ++ ls'.map (Line.below d))).program.code.toList =
      (ls.filterMap (Line.placed? set)).map ((ofLines set (ls ++ ls')).filled ·.instr) ++
        (ls'.filterMap (Line.placed? set)).map ((ofLines set (ls ++ ls')).filled ·.instr) := by
    rw [code_program_append_map_below, code_program_append]
  have hlines : (ofLines set (ls ++ ls'.map (Line.below d))).program.lines.toList =
      (ofLines set ls).program.lines.toList ++ (ofLines set ls').program.lines.toList.map (· + d) := by
    simp [lines_program_append_map_below]
  have hlines' : (ofLines set (ls ++ [l] ++ ls'.map (Line.below (d + 1)))).program.lines.toList =
      (ofLines set ls).program.lines.toList ++
        ([l.number] ++ ((ofLines set ls').program.lines.toList.map (· + d)).map (· + 1)) := by
    rw [lines_program_insert ls ls' hinstr, List.map_map]
    rfl
  have hcode' := code_program_insert ls ls' hinstr hi (d + 1)
  have hopens := Program.opens_of_append hcode hcode' (hmoved _) (hmoved _) hlines hlines'
    (by simp [lines_program_ofLines]) rfl (by simp [lines_program_ofLines])
    (by intro k _; rw [List.length_map]; exact Program.around_next _ k)
  rw [List.length_map] at hopens
  exact hopens

end

end Assembly

/-! ### The script -/

/-- The line behind a closed text begins where the instructions of that text end. -/
theorem Assembly.beginsAt_append {set : InstrSet} {cs : List Char} (h : Line.Closed cs) (ds : List Char) :
    (ofLines set (Line.scan (cs ++ ds))).program.BeginsAt (Line.breaks cs + 1)
      ((Line.scan cs).filterMap (Line.placed? set)).length := by
  have hlow : ∀ m ∈ ((Line.scan cs).filterMap (Line.placed? set)).map (·.line), m < Line.breaks cs + 1 := by
    intro m hm
    obtain ⟨l, hl, rfl⟩ := exists_line_of_mem_placed hm
    rw [Nat.add_comm]
    exact Line.number_lt_of_mem_scanFrom h hl
  have hhigh : ∀ m ∈ (((Line.scan ds).map (Line.below (Line.breaks cs))).filterMap (Line.placed? set)).map (·.line),
      Line.breaks cs + 1 ≤ m := by
    intro m hm
    obtain ⟨l, hl, rfl⟩ := exists_line_of_mem_placed hm
    obtain ⟨l', hl', rfl⟩ := List.mem_map.mp hl
    have hle := Line.number_le_of_mem_scanFrom hl'
    show Line.breaks cs + 1 ≤ l'.number + Line.breaks cs
    omega
  have hlines : (ofLines set (Line.scan (cs ++ ds))).program.lines.toList = _ := lines_program_ofLines _
  rw [Line.scan_append h, List.filterMap_append, List.map_append, ← Line.scan_append h] at hlines
  simpa using Program.beginsAt_of_lines_eq hlow hhigh hlines (size_program _)

theorem tells_nop : Tells .standard "nop".toList { instr := some .nop } :=
  tells_of_spellsInstr (.plain (mnemonic_of_kind .nop)) (by decide) (by simp [Instr.Unresolved, Instr.target?])
    (not_isBreak_of_any (by decide))

/-- A script with a `nop` put in compiles to the program with room made for it. -/
theorem compile_insert_nop {A B : String} {p : Program} (hclosed : Line.Closed A.toList)
    (hcompile : Program.compile .standard (A ++ B) = .ok p) :
    ∃ p' q, Program.compile .standard (A ++ "nop\n" ++ B) = .ok p' ∧
      p.BeginsAt (Line.breaks A.toList + 1) q ∧ p'.code[q]? = some .nop ∧ p.Opens p' q 1 1 (Program.Around q) := by
  obtain ⟨hlinkable, rfl⟩ := compile_eq_ok_iff_linkable.mp hcompile
  let l : Line := ⟨Line.breaks A.toList + 1, "nop".toList⟩
  have hlabel : l.label? .standard = none := by rw [Line.label?, tells_nop.parse]
  have hinstr : l.instr? .standard = some .nop := by
    rw [Line.instr?, tells_nop.parse]
    rfl
  have hscan := Line.scan_toList_append hclosed B
  have hscan' : Line.scan (A ++ "nop\n" ++ B).toList =
      Line.scan A.toList ++ [l] ++ (Line.scan B.toList).map (Line.below (Line.breaks A.toList + 1)) := by
    rw [← Line.scan_append_line hclosed tells_nop.ne_nil tells_nop.no_break, String.toList_append,
      String.toList_append, List.append_assoc]
    rfl
  refine ⟨_, ((Line.scan A.toList).filterMap (Line.placed? .standard)).length,
    compile_eq_ok_iff_linkable.mpr ⟨?_, rfl⟩, ?_, ?_, ?_⟩
  · rw [hscan, Line.Linkable.append_map_below_iff] at hlinkable
    rw [hscan', Line.Linkable.append_map_below_iff]
    exact hlinkable.insert ⟨_, by rw [tells_nop.parse]⟩ hlabel hinstr rfl
  · rw [String.toList_append]
    exact Assembly.beginsAt_append hclosed B.toList
  · rw [hscan', ← Array.getElem?_toList, Assembly.code_program_insert _ _ hinstr rfl]
    simp
  · rw [hscan, hscan']
    exact Assembly.opens_insert _ _ hlabel hinstr rfl _

/-! ### The runs -/

/-- From a goal, the program with a `nop` put in comes to the instruction there in at most one step. -/
theorem Run.advance_around {σ : Type} {h : Host σ} {limits : Limits} {p : Program} {q : Nat}
    (hlimit : limits.maxSteps = none) (hnop : p.code[q]? = some .nop) (k k' : Nat) (haround : Program.Around q k k')
    (m : Machine σ) (n : Nat) :
    ∃ c ≤ 1, (⟨m, k', n⟩ : Run σ).advance p limits h c = .running ⟨m, Program.opened q 1 k, n + c⟩ := by
  rcases haround with rfl | ⟨rfl, rfl⟩
  · exact ⟨0, Nat.zero_le 1, rfl⟩
  · refine ⟨1, Nat.le_refl 1, ?_⟩
    rw [advance, step_of_next hlimit hnop rfl, Program.opened, if_pos (Nat.le_refl _)]
    rfl

/-- A line that says `nop` can be put into a script at the beginning of any line. With the same host and the
same capacity, and without a step limit, the program then ends exactly if it did before, with the same
machine and the same result, after at least as many steps. Only faults of instructions behind the line are
reported one instruction and one line further on. -/
theorem nop_line_inserted {A B : String} {p : Program} (hclosed : Line.Closed A.toList)
    (hcompile : Program.compile .standard (A ++ B) = .ok p) :
    ∃ p' q, Program.compile .standard (A ++ "nop\n" ++ B) = .ok p' ∧
      p.BeginsAt (Line.breaks A.toList + 1) q ∧ p'.code[q]? = some .nop ∧
      ∀ (σ : Type) (h : Host σ) (host : σ) (capacity : Nat),
        ((∃ o, (start host).Ends p ⟨capacity, none⟩ h o) ↔ ∃ o', (start host).Ends p' ⟨capacity, none⟩ h o') ∧
        ∀ o o', (start host).Ends p ⟨capacity, none⟩ h o → (start host).Ends p' ⟨capacity, none⟩ h o' →
          o'.result = o.result.mapError (Fault.moved q 1 1) ∧
          o'.result.mapError Fault.root = o.result.mapError Fault.root ∧
          o'.machine = o.machine ∧ o.steps ≤ o'.steps := by
  obtain ⟨p', q, hcompile', hbegins, hnop, hopens⟩ := compile_insert_nop hclosed hcompile
  refine ⟨p', q, hcompile', hbegins, hnop, fun σ h host capacity => ⟨?_, ?_⟩⟩
  · exact exists_ends_iff hopens rfl (advance_around rfl hnop) (Program.around_zero q)
  · intro o o' hends hends'
    obtain ⟨c, hmoved⟩ := exists_ends_moved hopens rfl (advance_around rfl hnop) (Program.around_zero q) hends
    cases hends'.unique hmoved
    exact ⟨rfl, Fault.mapError_root_moved o.result, rfl, Nat.le_add_right _ _⟩

/-- A `nop` between a label and the loop that it heads, so that every round passes it. The fault behind the
loop is reported one instruction and one line further on. -/
theorem nop_line_inserted_loop :
    let A := "mov $x, #true\nagain:\n"
    let B := "push $x\nmov $x, #false\njne again\npush $y\n"
    ∃ p', Program.compile .standard (A ++ "nop\n" ++ B) = .ok p' ∧ p'.code[1]? = some .nop ∧
      ∃ o', (start (∅ : Store)).Ends p' ⟨100, none⟩ Host.store o' ∧
        o'.result = .error (.located 5 7 (.unsetRegister "y")) ∧ o'.machine.log = [] ∧ 8 ≤ o'.steps := by
  intro A B
  let p : Program :=
    ⟨#[.move (.register "x") (.immediate (.boolean true)), .push (.register "x"),
      .move (.register "x") (.immediate (.boolean false)), .jump .truthy ⟨"again", some 1⟩,
      .push (.register "y")], #[1, 3, 4, 5, 6]⟩
  have hcompile : Program.compile .standard (A ++ B) = .ok p := Fallible.toOption_eq_some_iff.mp (by decide +kernel)
  have hclosed : Line.Closed A.toList := .inr ⟨"mov $x, #true\nagain:".toList, by decide +kernel⟩
  have hrun : (start (∅ : Store)).advance p ⟨100, none⟩ Host.store 8 =
      .ended ⟨.error (.located 4 6 (.unsetRegister "y")), 8,
        ⟨.empty, ((∅ : Table Value).insert "x" (.boolean true)).insert "x" (.boolean false), ∅, []⟩⟩ := rfl
  obtain ⟨p', q, hcompile', hbegins, hnop, hruns⟩ := nop_line_inserted hclosed hcompile
  obtain ⟨hiff, hsame⟩ := hruns Store Host.store ∅ 100
  obtain ⟨o', hends'⟩ := hiff.mp ⟨_, 8, hrun⟩
  obtain ⟨hresult, -, hmachine, hsteps⟩ := hsame _ o' ⟨8, hrun⟩ hends'
  have hbreaks : Line.breaks A.toList = 2 := by decide
  have hq : q = 1 := by
    rw [hbegins.count, hbreaks]
    rfl
  subst hq
  exact ⟨p', hcompile', hnop, o', hends', hresult, by rw [hmachine]; rfl, hsteps⟩

end StackScript
