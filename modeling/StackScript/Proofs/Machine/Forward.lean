import StackScript.Proofs.Machine.Control
import StackScript.Proofs.Machine.Depth
import StackScript.Proofs.Machine.StepLimit

/-!
# Programs without jumps back

In a program whose jumps all lead ahead (`Program.Forward`) each step of a run increases the index
(`index_lt_of_step`). The indices that a run passes (`Run.path`) are then strictly increasing and within the
program, so there are no more of them than instructions. As a run counts a step for each index that it passes
(`steps_advance_eq`), this bounds its steps. Main statement (`forward_program_halts`): such a program ends, on every
host, and a limit of as many steps as it has instructions makes no difference.
-/

namespace StackScript

variable {σ : Type} {h : Host σ} {i : Instr} {p : Program}

/-! ### Jumps ahead -/

/-- No jump leads back, or to itself. It may have no position, or one beyond the end of the program. -/
def Program.Forward (p : Program) : Prop :=
  ∀ k < p.size, ∀ t ∈ p.target? k, ∀ q ∈ t.position, k < q

instance (p : Program) : Decidable p.Forward :=
  inferInstanceAs (Decidable (∀ k < p.size, ∀ t ∈ p.target? k, ∀ q ∈ t.position, k < q))

theorem Program.Forward.lt_after (hp : p.Forward) {k : Nat} (hi : p.code[k]? = some i) {flow : Flow}
    (hflow : i.LeadsTo flow) : k < flow.after k := by
  cases flow with
  | next => exact Nat.lt_succ_self k
  | jump q =>
    obtain ⟨label, ht⟩ := hflow
    have htarget : p.target? k = some ⟨label, some q⟩ := by
      rw [target?, hi]
      exact ht
    exact hp k (Array.getElem?_eq_some_iff.mp hi).1 _ htarget q rfl

namespace Run

variable {limits : Limits} {r r' : Run σ} {o : Outcome σ} {n : Nat}

theorem index_lt_size_of_next? (hnext : r.next? p limits = some i) : r.index < p.size :=
  (Array.getElem?_eq_some_iff.mp (code_of_next? hnext)).1

theorem index_lt_of_step (hp : p.Forward) (hstep : r.step p limits h = .running r') : r.index < r'.index := by
  obtain ⟨i, flow, m', hnext, hon, rfl⟩ := step_eq_running_iff.mp hstep
  exact hp.lt_after (code_of_next? hnext) (Exec.leadsTo_instr i r.machine flow m' hon)

/-! ### The path of a run -/

/-- The indices of the instructions that a run executes in up to `fuel` steps, in order. -/
def path (p : Program) (limits : Limits) (h : Host σ) : (fuel : Nat) → Run σ → List Nat
  | 0, _ => []
  | fuel + 1, r =>
    (r.next? p limits).toList.map (fun _ => r.index) ++
      match r.step p limits h with
      | .running r' => path p limits h fuel r'
      | .ended _ => []

theorem path_of_running (hstep : r.step p limits h = .running r') :
    r.path p limits h (n + 1) = r.index :: r'.path p limits h n := by
  obtain ⟨i, _, _, hnext, -, -⟩ := step_eq_running_iff.mp hstep
  rw [path, hstep, hnext]
  rfl

theorem path_of_ended (hstep : r.step p limits h = .ended o) :
    r.path p limits h (n + 1) = (r.next? p limits).toList.map fun _ => r.index := by
  rw [path, hstep]
  exact List.append_nil _

/-- At the indices of the path stand the instructions executed. -/
theorem map_code_path (p : Program) (limits : Limits) (h : Host σ) (n : Nat) (r : Run σ) :
    (r.path p limits h n).map (p.code[·]?) = (r.executed p limits h n).map some := by
  induction n generalizing r with
  | zero => rfl
  | succ n ih =>
    rw [path, executed, List.map_append, List.map_append]
    congr 1
    · cases hnext : r.next? p limits with
      | none => rfl
      | some i =>
        show [p.code[r.index]?] = [some i]
        rw [code_of_next? hnext]
    · cases r.step p limits h with
      | running r' => exact ih r'
      | ended o => rfl

theorem steps_step_eq (p : Program) (limits : Limits) (h : Host σ) (r : Run σ) :
    (r.step p limits h).steps = r.steps + (r.next? p limits).toList.length := by
  obtain ⟨-, hnext, hstep⟩ | ⟨_, _, _, _, _, hnext, hstep⟩ | ⟨i, -, hnext, hstep⟩ := step_cases p limits h r
  · rw [hstep, hnext]
    rfl
  · rw [hstep, hnext]
    rfl
  · rw [hstep, hnext, execute_eq, steps_proceed]
    rfl

/-- A step is counted for each index of the path, also if the run ends there. -/
theorem steps_advance_eq (p : Program) (limits : Limits) (h : Host σ) (n : Nat) (r : Run σ) :
    (r.advance p limits h n).steps = r.steps + (r.path p limits h n).length := by
  induction n generalizing r with
  | zero => rfl
  | succ n ih =>
    rw [advance]
    cases hstep : r.step p limits h with
    | running r' =>
      rw [path_of_running hstep, List.length_cons]
      show (r'.advance p limits h n).steps = _
      rw [ih, steps_of_step_eq_running hstep, Nat.add_assoc, Nat.add_comm 1]
    | ended o =>
      have hone := steps_step_eq p limits h r
      rw [path_of_ended hstep, List.length_map, ← hone, hstep]

/-! ### Paths that only lead ahead -/

theorem index_le_of_mem_path (hp : p.Forward) {k : Nat} (hk : k ∈ r.path p limits h n) : r.index ≤ k := by
  induction n generalizing r with
  | zero => cases hk
  | succ n ih =>
    cases hstep : r.step p limits h with
    | running r' =>
      rw [path_of_running hstep] at hk
      rcases List.mem_cons.mp hk with rfl | hk
      · exact Nat.le_refl _
      · exact Nat.le_of_lt (Nat.lt_of_lt_of_le (index_lt_of_step hp hstep) (ih hk))
    | ended o =>
      rw [path_of_ended hstep] at hk
      obtain ⟨_, -, rfl⟩ := List.mem_map.mp hk
      exact Nat.le_refl _

/-- No instruction is executed twice, nor one after another that follows it. -/
theorem pairwise_lt_path (hp : p.Forward) : (r.path p limits h n).Pairwise (· < ·) := by
  induction n generalizing r with
  | zero => exact .nil
  | succ n ih =>
    cases hstep : r.step p limits h with
    | running r' =>
      rw [path_of_running hstep]
      refine .cons (fun k hk => ?_) ih
      exact Nat.lt_of_lt_of_le (index_lt_of_step hp hstep) (index_le_of_mem_path hp hk)
    | ended o =>
      rw [path_of_ended hstep]
      cases r.next? p limits with
      | none => exact .nil
      | some i => exact List.pairwise_singleton _ _

/-- A path that only leads ahead is no longer than the rest of the program. The run may have left the program
already, and then its path is empty. -/
theorem length_path_le (hp : p.Forward) : (r.path p limits h n).length ≤ p.size - r.index := by
  induction n generalizing r with
  | zero => exact Nat.zero_le _
  | succ n ih =>
    cases hstep : r.step p limits h with
    | running r' =>
      obtain ⟨i, _, _, hnext, -, -⟩ := step_eq_running_iff.mp hstep
      have hsize := index_lt_size_of_next? hnext
      have hlt := index_lt_of_step hp hstep
      -- The next index may be far beyond the end, where the difference is zero.
      have hrest : (r'.path p limits h n).length ≤ p.size - r'.index := ih
      rw [path_of_running hstep, List.length_cons]
      omega
    | ended o =>
      rw [path_of_ended hstep, List.length_map]
      cases hnext : r.next? p limits with
      | none => exact Nat.zero_le _
      | some i =>
        have hsize := index_lt_size_of_next? hnext
        show 1 ≤ p.size - r.index
        omega

theorem steps_advance_le_size (hp : p.Forward) (limits : Limits) (h : Host σ) (host : σ) (n : Nat) :
    ((start host).advance p limits h n).steps ≤ p.size := by
  have hlength : ((start host).path p limits h n).length ≤ p.size - 0 := length_path_le hp
  rw [steps_advance_eq]
  show 0 + _ ≤ p.size
  omega

/-- One step more than there are instructions is enough to find the end. -/
theorem exists_ended_of_forward (hp : p.Forward) (limits : Limits) (h : Host σ) (host : σ) :
    ∃ o, (start host).advance p limits h (p.size + 1) = .ended o ∧ o.steps ≤ p.size := by
  have hle := steps_advance_le_size hp limits h host (p.size + 1)
  cases hrun : (start host).advance p limits h (p.size + 1) with
  | ended o =>
    rw [hrun] at hle
    exact ⟨o, rfl, hle⟩
  | running r =>
    -- A run that goes on has counted every step, and these are too many.
    have hsteps : r.steps = 0 + (p.size + 1) := steps_of_advance_eq_running hrun
    rw [hrun] at hle
    simp only [Progress.steps] at hle
    omega

end Run

open Run

/-- A program without jumps back ends. It executes each instruction at most once and in the order in which they
stand, so in at most as many steps as there are instructions, and with that limit it does the same. It is started
exactly if there is memory for its stack, with the limit or without. -/
theorem forward_program_halts {p : Program} (hp : p.Forward) (h : Host σ) (host : σ) (capacity : Nat) :
    ∃ o : Outcome σ, (∀ fuel > p.size, p.run? ⟨capacity, none⟩ h host fuel = some o) ∧ o.steps ≤ p.size ∧
      (∀ fuel > p.size, p.run? ⟨capacity, some p.size⟩ h host fuel = some o) ∧
      (∀ fuel > p.size, p.launch? ⟨capacity, none⟩ h host fuel =
          (if Stack.Fits capacity then some (.ended o) else none) ∧
        p.launch? ⟨capacity, some p.size⟩ h host fuel = p.launch? ⟨capacity, none⟩ h host fuel) ∧
      (∀ fuel > p.size, ((start host).path p ⟨capacity, none⟩ h fuel).length = o.steps) ∧
      ∀ fuel, ((start host).path p ⟨capacity, none⟩ h fuel).Pairwise (· < ·) ∧
        ((start host).path p ⟨capacity, none⟩ h fuel).map (p.code[·]?) =
          ((start host).executed p ⟨capacity, none⟩ h fuel).map some := by
  obtain ⟨o, hend, hsteps⟩ := exists_ended_of_forward hp ⟨capacity, none⟩ h host
  have hends : ∀ fuel > p.size, (start host).advance p ⟨capacity, none⟩ h fuel = .ended o := by
    intro fuel hfuel
    exact advance_eq_ended_of_le hfuel hend
  have hlimited : ∀ fuel > p.size, p.run? ⟨capacity, some p.size⟩ h host fuel = some o := by
    intro fuel hfuel
    rw [run?_of_limit hfuel, Ends.cut_eq ⟨_, hend⟩ hsteps]
  refine ⟨o, ?_, hsteps, hlimited, ?_, ?_, ?_⟩
  · intro fuel hfuel
    exact run?_eq_some_iff.mpr (hends fuel hfuel)
  · intro fuel hfuel
    rw [launch?_eq, launch?_eq, hends fuel hfuel, run?_eq_some_iff.mp (hlimited fuel hfuel)]
    exact ⟨rfl, rfl⟩
  · intro fuel hfuel
    have hcount := steps_advance_eq p ⟨capacity, none⟩ h fuel (start host)
    rw [hends fuel hfuel] at hcount
    exact ((Nat.zero_add _).symm.trans hcount.symm)
  · intro fuel
    exact ⟨pairwise_lt_path hp, map_code_path p _ h fuel _⟩

/-- A jump far beyond the end, which the value of the variable does not take, and one without a position, which it
does. All four instructions are executed, and the last one fails. -/
theorem forward_program_halts_unresolved :
    let p : Program := ⟨#[.push (.direct "x"), .jump .truthy ⟨"far", some 18446744073709551615⟩,
      .push (.direct "x"), .jump .falsy ⟨"nowhere", none⟩], #[1, 2, 3, 4]⟩
    let host : Store := (∅ : Store).insert "x" (.boolean false)
    p.Forward ∧ ∃ o, o.result = .error (.located 3 4 (.unresolvedLabel "nowhere")) ∧ o.steps = 4 ∧
      (∀ fuel > 4, p.run? ⟨1, none⟩ Host.store host fuel = some o) ∧
      (∀ fuel > 4, p.run? ⟨1, some 4⟩ Host.store host fuel = some o) ∧
      ((start host).path p ⟨1, none⟩ Host.store 5).Pairwise (· < ·) := by
  intro p host
  have hp : p.Forward := by decide
  obtain ⟨o, hfree, -, hlimited, -, -, hpath⟩ := forward_program_halts hp Host.store host 1
  have hrun : (p.run? ⟨1, none⟩ Host.store host 5).map (fun o => (o.result, o.steps)) =
      some (.error (.located 3 4 (.unresolvedLabel "nowhere")), 4) := rfl
  rw [hfree 5 (by decide)] at hrun
  obtain ⟨hresult, hsteps⟩ := Prod.mk.inj (Option.some.inj hrun)
  exact ⟨hp, o, hresult, hsteps, hfree, hlimited, (hpath 5).1⟩

end StackScript
