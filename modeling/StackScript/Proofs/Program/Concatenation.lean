import StackScript.Proofs.Assembly.Joined
import StackScript.Proofs.Machine.Relocation

/-!
# Scripts put together

A script put behind another one is linked to it: its code follows, with the jumps raised. The first part
runs as it does alone, since each of its steps finds the same instruction. Control leaves it at its end
only, for its jumps go nowhere else, and from there the second part runs as it does alone on the machine
that it finds. Main statement (`compile_append_chains`).
-/

namespace StackScript

open Run

variable {σ : Type} {h : Host σ} {limits : Limits}

/-! ### The part in front -/

namespace Run

variable {p p' : Program} {r r' : Run σ} {n : Nat}

/-- A step depends on the instruction at the index of the run, and on its line. -/
theorem step_congr (hcode : p'.code[r.index]? = p.code[r.index]?) (hline : p'.line r.index = p.line r.index) :
    r.step p' limits h = r.step p limits h := by
  unfold step execute
  rw [hcode, hline]

variable (hfront : ∀ k < p.size, p'.code[k]? = p.code[k]? ∧ p'.line k = p.line k)

include hfront

theorem step_eq_of_lt (hlt : r.index < p.size) : r.step p' limits h = r.step p limits h :=
  step_congr (hfront _ hlt).1 (hfront _ hlt).2

theorem advance_eq_running_of_front (hrun : r.advance p limits h n = .running r') :
    r.advance p' limits h n = .running r' := by
  induction n generalizing r with
  | zero => exact hrun
  | succ n ih =>
    rw [advance] at hrun ⊢
    split at hrun
    · next r₁ hstep =>
      obtain ⟨i, -, -, hnext, -, -⟩ := step_eq_running_iff.mp hstep
      have hlt : r.index < p.size := (Array.getElem?_eq_some_iff.mp (code_of_next? hnext)).1
      rw [step_eq_of_lt hfront hlt, hstep]
      exact ih hrun
    · cases hrun

end Run

/-! ### The part behind -/

/-- The run of a part as it is behind `d` instructions on `l` lines, after `s` steps. -/
def Progress.behind (d l s : Nat) : Progress σ → Progress σ
  | .running r => .running ⟨r.machine, r.index + d, r.steps + s⟩
  | .ended o => .ended (o.moved 0 d l s)

theorem Progress.Moved.eq_behind {d l s : Nat} {x y : Progress σ}
    (hmoved : Moved (fun k k' => k' = k + d) 0 d l s x y) : y = x.behind d l s := by
  cases hmoved with
  | running hto =>
    subst hto
    rfl
  | ended => rfl

theorem Instr.moved_raised (d : Nat) (i : Instr) : i.Moved (fun k k' => k' = k + d) (i.raised d) := by
  cases i with
  | jump condition target =>
    obtain ⟨label, _ | k⟩ := target
    · exact .jump .none
    · exact .jump (.some rfl)
  | _ => exact .plain rfl

/-! ### Both parts -/

/-- `p` is `pA` and then `pB`, with `l` line breaks in the script of `pA`: it runs as `pA` does, and if that
comes to its end, it goes on as `pB` does from there. -/
structure Program.Chains (p pA pB : Program) (l : Nat) (limits : Limits) (h : Host σ) (host : σ) : Prop where
  /-- As long as `pA` runs, `p` is in the same state. -/
  front : ∀ n r, (start host).advance pA limits h n = .running r →
    r.index ≤ pA.size ∧ (start host).advance p limits h n = .running r
  /-- Where `pA` ends, an instruction has failed, which ends `p` in the same way, or its end is reached. -/
  ends : ∀ o, (start host).Ends pA limits h o →
    (∃ k line e, k < pA.size ∧ o.result = .error (.located k line e) ∧ (start host).Ends p limits h o) ∨
      ∃ r, (start host).Reaches pA limits h r ∧ r.index = pA.size ∧ o = ⟨result r.machine, r.steps, r.machine⟩
  /-- From there on `p` does what `pB` does on the machine that `pA` has left: the indices are behind `pA`,
  the steps add up, and faults are moved by the size of `pA` and the lines of its script. -/
  behind : ∀ n r, (start host).advance pA limits h n = .running r → r.index = pA.size →
    ∀ j, (start host).advance p limits h (n + j) =
      ((⟨r.machine, 0, 0⟩ : Run σ).advance pB limits h j).behind pA.size l r.steps

section

variable {p pA pB : Program} {l : Nat} (hlinesA : pA.lines.size = pA.size)
  (hcode : p.code = pA.code ++ pB.code.map (Instr.raised pA.size))
  (hlines : p.lines = pA.lines ++ pB.lines.map (· + l))

include hlinesA hcode hlines

theorem Program.front_of_append :
    ∀ k < pA.size, p.code[k]? = pA.code[k]? ∧ p.line k = pA.line k := by
  intro k hk
  rw [line, line, line?, line?, hcode, hlines, Array.getElem?_append_left hk,
    Array.getElem?_append_left (by rw [hlinesA]; exact hk)]
  exact ⟨rfl, rfl⟩

theorem Program.opens_of_append_code (hlinesB : pB.lines.size = pB.size) :
    pB.Opens p 0 pA.size l (fun k k' => k' = k + pA.size) := by
  have hmoved : List.Forall₂ (Instr.Moved fun k k' => k' = k + pA.size) pB.code.toList
      (pB.code.toList.map (Instr.raised pA.size)) :=
    List.forall₂_map_right_iff.mpr (List.forall₂_same.mpr fun i _ => i.moved_raised pA.size)
  have hcodeB : pB.code.toList = [] ++ pB.code.toList := rfl
  have hcode' : p.code.toList = [] ++ (pA.code.toList ++ pB.code.toList.map (Instr.raised pA.size)) := by
    simp [hcode]
  have hlinesB' : pB.lines.toList = [] ++ pB.lines.toList := rfl
  have hlines' : p.lines.toList = [] ++ (pA.lines.toList ++ pB.lines.toList.map (· + l)) := by
    simp [hlines]
  refine opens_of_append hcodeB hcode' .nil hmoved hlinesB' hlines' rfl hlinesA hlinesB ?_
  intro k _
  show k + pA.size + 1 = k + 1 + pA.size
  exact Nat.add_right_comm k pA.size 1

/-- Where control comes to the part behind, that part runs as it does alone. -/
theorem Run.advance_eq_behind (hlinesB : pB.lines.size = pB.size) (hlimit : limits.maxSteps = none)
    (m : Machine σ) (s j : Nat) :
    (⟨m, pA.size, s⟩ : Run σ).advance p limits h j =
      ((⟨m, 0, 0⟩ : Run σ).advance pB limits h j).behind pA.size l s := by
  have hopens := Program.opens_of_append_code hlinesA hcode hlines hlinesB
  -- A goal is where its instruction is, so there is nothing to catch up.
  have hcatch : ∀ k k', k' = k + pA.size → ∀ (m : Machine σ) n, ∃ c ≤ 0,
      (⟨m, k', n⟩ : Run σ).advance p limits h c = .running ⟨m, Program.opened 0 pA.size k, n + c⟩ := by
    rintro k _ rfl m n
    exact ⟨0, Nat.le_refl 0, rfl⟩
  obtain ⟨c, hc, hmoved⟩ := moved_advance hopens hlimit hcatch (Nat.zero_add pA.size).symm j m 0 s
  rw [Nat.zero_mul, Nat.le_zero] at hc
  subst hc
  rw [Nat.zero_add, Nat.zero_add] at hmoved
  exact hmoved.eq_behind

theorem Program.chains_of_append (hlinesB : pB.lines.size = pB.size) (hlinked : pA.Linked)
    (hlimit : limits.maxSteps = none) (h : Host σ) (host : σ) : p.Chains pA pB l limits h host := by
  have hfront := front_of_append hlinesA hcode hlines
  refine ⟨?_, ?_, ?_⟩
  · intro n r hrun
    exact ⟨index_le_size_of_advance hlinked (Nat.zero_le _) hrun, advance_eq_running_of_front hfront hrun⟩
  · rintro o ⟨n, hend⟩
    obtain ⟨k, r, hrun, hlast⟩ := exists_last_step hend
    obtain ⟨hnone, rfl⟩ | ⟨limit, hmax, -, -⟩ | ⟨i, source, m', hnext, -, -, rfl⟩ := step_eq_ended_cases hlast
    · -- Control does not go beyond the end, so it is right there.
      have hle := index_le_size_of_advance hlinked (Nat.zero_le _) hrun
      have hge : pA.size ≤ r.index := Array.getElem?_eq_none_iff.mp hnone
      exact .inr ⟨r, ⟨k, hrun⟩, Nat.le_antisymm hle hge, rfl⟩
    · cases hlimit.symm.trans hmax
    · have hlt : r.index < pA.size := (Array.getElem?_eq_some_iff.mp (code_of_next? hnext)).1
      have hreaches : (start host).Reaches p limits h r := ⟨k, advance_eq_running_of_front hfront hrun⟩
      have hstep := (step_eq_of_lt hfront hlt).trans hlast
      exact .inl ⟨_, _, _, hlt, rfl, hreaches.ends (ends_of_step hstep)⟩
  · intro n r hrun hindex j
    rw [advance_add, advance_eq_running_of_front hfront hrun]
    obtain ⟨m, k, s⟩ := r
    cases hindex
    exact advance_eq_behind hlinesA hcode hlines hlinesB hlimit m s j

end

/-- A script that is empty or ends with a line feed can be put in front of another one that shares no label
with it, over any instruction set. The code and the lines are those of the two, moved as they have to be, and
without a step limit the program does what the first script does and then what the second does. -/
theorem compile_append_chains (set : InstrSet) {A B : String} {pA pB : Program}
    (hA : Program.compile set A = .ok pA) (hB : Program.compile set B = .ok pB) (hclosed : Line.Closed A.toList)
    (hlabels : ∀ l ∈ Line.scan A.toList, ∀ l' ∈ Line.scan B.toList, ∀ name, l.Declares name → ¬l'.Declares name) :
    ∃ p, Program.compile set (A ++ B) = .ok p ∧
      p.code = pA.code ++ pB.code.map (Instr.raised pA.size) ∧
      p.lines = pA.lines ++ pB.lines.map (· + Line.breaks A.toList) ∧
      ∀ (σ : Type) (h : Host σ) (host : σ) (capacity : Nat),
        p.Chains pA pB (Line.breaks A.toList) ⟨capacity, none⟩ h host := by
  have hdisjoint : ∀ name ∈ (Line.scan A.toList).filterMap (Line.label? set),
      name ∉ (Line.scan B.toList).filterMap (Line.label? set) := by
    intro name hname hname'
    obtain ⟨l, hl, hdeclares⟩ := (mem_labels_iff (compile_eq_ok_iff.mp hA).1).mp hname
    obtain ⟨l', hl', hdeclares'⟩ := (mem_labels_iff (compile_eq_ok_iff.mp hB).1).mp hname'
    exact hlabels l hl l' hl' name hdeclares hdeclares'
  obtain ⟨p, hp, hcode, hlines⟩ := compile_append hA hB hclosed hdisjoint
  refine ⟨p, hp, hcode, hlines, ?_⟩
  intro σ h host capacity
  exact Program.chains_of_append (Program.size_lines_of_compile hA) hcode hlines (Program.size_lines_of_compile hB)
    (Program.linked_of_compile hA) rfl h host

/-- The label at the end of the first script is where the second begins, and the second goes back to its own
start. It fails in its last line, the fourth of its own and the eighth of both. -/
theorem compile_append_chains_back :
    let A := "mov $x, #true\r\njmp out\npush $x\nout:\n"
    let B := "again: push $x\nmov $x, #false\njne again\npush $y\n"
    Line.breaks A.toList = 4 ∧ ∃ p, Program.compile .standard (A ++ B) = .ok p ∧
      p.code.toList.filterMap (·.target?) = [⟨"out", some 3⟩, ⟨"again", some 3⟩] ∧
      (p.run? ⟨100, none⟩ Host.store ∅ 9).map (fun o => (o.result, o.steps)) =
        some (.error (.located 6 8 (.unsetRegister "y")), 9) := by
  intro A B
  have hA : Program.compile .standard A =
      .ok ⟨#[.move (.register "x") (.immediate (.boolean true)), .jump .always ⟨"out", some 3⟩,
        .push (.register "x")], #[1, 2, 3]⟩ :=
    Fallible.toOption_eq_some_iff.mp (by decide +kernel)
  have hB : Program.compile .standard B =
      .ok ⟨#[.push (.register "x"), .move (.register "x") (.immediate (.boolean false)),
        .jump .truthy ⟨"again", some 0⟩, .push (.register "y")], #[1, 2, 3, 4]⟩ :=
    Fallible.toOption_eq_some_iff.mp (by decide +kernel)
  have hclosed : Line.Closed A.toList := .inr ⟨"mov $x, #true\r\njmp out\npush $x\nout:".toList, by decide +kernel⟩
  have hlabels : ∀ l ∈ Line.scan A.toList, ∀ l' ∈ Line.scan B.toList, ∀ name,
      l.Declares name → ¬l'.Declares name := by
    intro l hl l' hl' name hdeclares hdeclares'
    have hname := (mem_labels_iff (compile_eq_ok_iff.mp hA).1).mpr ⟨l, hl, hdeclares⟩
    have hname' := (mem_labels_iff (compile_eq_ok_iff.mp hB).1).mpr ⟨l', hl', hdeclares'⟩
    have hlabelsA : (Line.scan A.toList).filterMap (Line.label? .standard) = ["out"] := by decide +kernel
    have hlabelsB : (Line.scan B.toList).filterMap (Line.label? .standard) = ["again"] := by decide +kernel
    simp_all
  have hbreaks : Line.breaks A.toList = 4 := by decide
  obtain ⟨p, hp, hcode, -, hchains⟩ := compile_append_chains .standard hA hB hclosed hlabels
  have hrun := (hchains Store Host.store ∅ 100).behind 2 _ rfl rfl 7
  rw [hbreaks] at hrun
  refine ⟨hbreaks, p, hp, ?_, ?_⟩
  · rw [hcode, Array.toList_append, Array.toList_map]
    rfl
  · rw [Program.run?, hrun]
    rfl

end StackScript
