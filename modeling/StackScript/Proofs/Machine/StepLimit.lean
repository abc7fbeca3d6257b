import StackScript.Proofs.Machine.Run

/-!
# Step limits

A limit of `k` steps stops a run before its next instruction once it has executed `k`, and does
nothing else: up to there the limited run is the unlimited one (`advance_of_steps_add_le`). So the
outcome under the limit can be read off the unlimited run after `k` steps (`run?_of_limit`), which is
all that the main statement needs (`step_limit_only_cuts`).
-/

namespace StackScript

variable {σ : Type} {p : Program} {h : Host σ} {capacity k n : Nat} {host : σ}

namespace Run

variable {r r' : Run σ} {o : Outcome σ}

/-! ### Below the limit -/

theorem step_of_steps_lt (hlt : r.steps < k) :
    r.step p ⟨capacity, some k⟩ h = r.step p ⟨capacity, none⟩ h := by
  unfold step
  cases p.code[r.index]? with
  | none => rfl
  | some i => exact if_neg (Nat.not_le.mpr hlt)

/-- As long as the limit is not passed, it does not show. -/
theorem advance_of_steps_add_le (hle : r.steps + n ≤ k) :
    r.advance p ⟨capacity, some k⟩ h n = r.advance p ⟨capacity, none⟩ h n := by
  induction n generalizing r with
  | zero => rfl
  | succ n ih =>
    rw [advance, advance, step_of_steps_lt (by omega)]
    cases hstep : r.step p ⟨capacity, none⟩ h with
    | running r' =>
      have hsteps := steps_of_step_eq_running hstep
      exact ih (by omega)
    | ended o => rfl

/-! ### At the limit -/

/-- The outcome of a run that may execute no further instruction. The end of the program is found
before the limit is looked at. -/
def stopped (p : Program) (k : Nat) (r : Run σ) : Outcome σ where
  result := if r.index < p.size then .error (.stepLimitExceeded k) else result r.machine
  steps := r.steps
  machine := r.machine

theorem step_of_limit_le (hle : k ≤ r.steps) :
    r.step p ⟨capacity, some k⟩ h = .ended (r.stopped p k) := by
  unfold step stopped
  by_cases hlt : r.index < p.size
  · rw [Array.getElem?_eq_getElem hlt, if_pos hlt]
    exact if_pos hle
  · rw [Array.getElem?_eq_none (Nat.not_lt.mp hlt), if_neg hlt]

end Run

/-- The outcome of a run that may execute no further instruction, if it has not ended. -/
def Progress.cut (p : Program) (k : Nat) : Progress σ → Outcome σ
  | .running r => r.stopped p k
  | .ended o => o

theorem Progress.machine_cut (x : Progress σ) : (x.cut p k).machine = x.machine := by
  cases x <;> rfl

open Run

/-- Under a limit of `k` steps every run ends, and its outcome is that of the unlimited run cut off
after `k` steps. -/
theorem run?_of_limit {fuel : Nat} (hfuel : k < fuel) :
    p.run? ⟨capacity, some k⟩ h host fuel =
      some (((start host).advance p ⟨capacity, none⟩ h k).cut p k) := by
  obtain ⟨d, rfl⟩ := Nat.exists_eq_add_of_le (Nat.succ_le_of_lt hfuel)
  have hbelow : (start host).advance p ⟨capacity, some k⟩ h k = (start host).advance p ⟨capacity, none⟩ h k :=
    advance_of_steps_add_le (Nat.le_of_eq (Nat.zero_add k))
  have hadvance : (start host).advance p ⟨capacity, some k⟩ h (k + 1 + d) =
      .ended (((start host).advance p ⟨capacity, none⟩ h k).cut p k) := by
    rw [Nat.add_assoc, advance_add, hbelow]
    cases hrun : (start host).advance p ⟨capacity, none⟩ h k with
    | ended o => rfl
    | running r =>
      have hsteps := steps_of_advance_eq_running hrun
      rw [Nat.add_comm 1 d]
      show r.advance p ⟨capacity, some k⟩ h (d + 1) = _
      rw [advance, step_of_limit_le (by rw [hsteps]; exact Nat.le_add_left k 0)]
      rfl
  unfold Program.run?
  rw [hadvance]

theorem eq_cut_of_run? {fuel : Nat} {o : Outcome σ} (hrun : p.run? ⟨capacity, some k⟩ h host fuel = some o) :
    o = ((start host).advance p ⟨capacity, none⟩ h k).cut p k :=
  (exists_run?_iff.mp ⟨fuel, hrun⟩).unique (exists_run?_iff.mp ⟨k + 1, run?_of_limit (Nat.lt_succ_self k)⟩)

/-! ### The unlimited run at the limit -/

namespace Run

variable {r : Run σ} {o : Outcome σ}

theorem Ends.eq_of_size_le (hend : p.size ≤ r.index) (hends : r.Ends p ⟨capacity, none⟩ h o) :
    o = ⟨result r.machine, r.steps, r.machine⟩ :=
  hends.unique (ends_of_step (step_of_end (Array.getElem?_eq_none hend)))

/-- Within the program a run executes an instruction before it ends. -/
theorem Ends.steps_lt (hlt : r.index < p.size) (hends : r.Ends p ⟨capacity, none⟩ h o) :
    r.steps < o.steps := by
  have hcode := Array.getElem?_eq_getElem hlt
  obtain ⟨n, hn⟩ := hends
  obtain ⟨hnone, -, -⟩ | ⟨_, _, _, hmax, _, _, _⟩ | ⟨i, -, -, hstep⟩ :=
    step_cases p ⟨capacity, none⟩ h r
  · rw [hcode] at hnone
    cases hnone
  · cases hmax
  · have hone : (r.execute p ⟨capacity, none⟩ h i).steps = r.steps + 1 := by
      rw [execute_eq, steps_proceed]
    cases n with
    | zero => cases hn
    | succ n =>
      rw [advance, hstep] at hn
      split at hn
      · next r' hexec =>
        have hrest := (steps_advance p ⟨capacity, none⟩ h n r').1
        rw [hexec] at hone
        rw [hn] at hrest
        simp only [Progress.steps] at hone hrest
        omega
      · next o' hexec =>
        cases hn
        rw [hexec] at hone
        simp only [Progress.steps] at hone
        omega

/-- A run that ends within the limit is not cut off. -/
theorem Ends.cut_eq (hends : (start host).Ends p ⟨capacity, none⟩ h o) (hle : o.steps ≤ k) :
    ((start host).advance p ⟨capacity, none⟩ h k).cut p k = o := by
  cases hrun : (start host).advance p ⟨capacity, none⟩ h k with
  | ended o' => exact Ends.unique ⟨k, hrun⟩ hends
  | running r =>
    have hsteps : r.steps = k := (steps_of_advance_eq_running hrun).trans (Nat.zero_add k)
    have hrest : r.Ends p ⟨capacity, none⟩ h o := (Reaches.ends_iff ⟨k, hrun⟩).mpr hends
    by_cases hlt : r.index < p.size
    · have hmore := hrest.steps_lt hlt
      omega
    · rw [hrest.eq_of_size_le (Nat.not_lt.mp hlt)]
      simp [Progress.cut, stopped, hlt]

/-- A run that goes on beyond the limit is within the program there. -/
theorem Ends.exists_running (hends : (start host).Ends p ⟨capacity, none⟩ h o) (hlt : k < o.steps) :
    ∃ r, (start host).advance p ⟨capacity, none⟩ h k = .running r ∧ r.index < p.size := by
  cases hrun : (start host).advance p ⟨capacity, none⟩ h k with
  | ended o' =>
    have hsteps := (steps_advance p ⟨capacity, none⟩ h k (start host)).2
    rw [hrun, Ends.unique ⟨k, hrun⟩ hends] at hsteps
    simp only [Progress.steps, start] at hsteps
    omega
  | running r =>
    refine ⟨r, rfl, Nat.lt_of_not_le fun hend => ?_⟩
    have hrest : r.Ends p ⟨capacity, none⟩ h o := (Reaches.ends_iff ⟨k, hrun⟩).mpr hends
    have hsteps : r.steps = k := (steps_of_advance_eq_running hrun).trans (Nat.zero_add k)
    rw [hrest.eq_of_size_le hend, ← hsteps] at hlt
    exact Nat.lt_irrefl _ hlt

/-- Within the program the limit is an error, and it has no place. -/
theorem cut_eq_of_index_lt {r : Run σ} (hrun : (start host).advance p ⟨capacity, none⟩ h k = .running r)
    (hlt : r.index < p.size) :
    ((start host).advance p ⟨capacity, none⟩ h k).cut p k = ⟨.error (.stepLimitExceeded k), k, r.machine⟩ := by
  have hsteps : r.steps = k := (steps_of_advance_eq_running hrun).trans (Nat.zero_add k)
  rw [hrun]
  simp [Progress.cut, stopped, hlt, hsteps]

end Run

/-! ### Runs with and without a limit -/

/-- A limit of `k` steps leaves a run as it is that ends within them. A longer run, or one that does
not end, it stops after `k` steps with a fault that has no place; the requests made until then are
those that the run begins with. -/
theorem step_limit_only_cuts (p : Program) (h : Host σ) (host : σ) (capacity k : Nat) :
    (∀ fuel o, p.run? ⟨capacity, none⟩ h host fuel = some o →
      (o.steps ≤ k → ∀ fuel' > k, p.run? ⟨capacity, some k⟩ h host fuel' = some o) ∧
      (k < o.steps → ∃ m : Machine σ, m.log <+: o.machine.log ∧
        ∀ fuel' > k, p.run? ⟨capacity, some k⟩ h host fuel' = some ⟨.error (.stepLimitExceeded k), k, m⟩)) ∧
      ((∀ fuel, p.run? ⟨capacity, none⟩ h host fuel = none) →
        ∃ m : Machine σ, ∀ fuel' > k,
          p.run? ⟨capacity, some k⟩ h host fuel' = some ⟨.error (.stepLimitExceeded k), k, m⟩) ∧
      ∀ k' ≥ k, ∀ fuel fuel' o o', p.run? ⟨capacity, some k⟩ h host fuel = some o →
        p.run? ⟨capacity, some k'⟩ h host fuel' = some o' → o.machine.log <+: o'.machine.log := by
  refine ⟨?_, ?_, ?_⟩
  · intro fuel o hrun
    have hends := exists_run?_iff.mp ⟨fuel, hrun⟩
    constructor
    · intro hle fuel' hfuel
      rw [run?_of_limit hfuel, hends.cut_eq hle]
    · intro hlt
      obtain ⟨r, hr, hindex⟩ := hends.exists_running hlt
      refine ⟨r.machine, ?_, fun fuel' hfuel => ?_⟩
      · obtain ⟨n, hn⟩ := hends
        have hlog := log_prefix_log_advance p ⟨capacity, none⟩ h (Nat.le_max_left k n) (start host)
        rw [hr, advance_eq_ended_of_le (Nat.le_max_right k n) hn] at hlog
        exact hlog
      · rw [run?_of_limit hfuel, cut_eq_of_index_lt hr hindex]
  · intro hforever
    cases hr : (start host).advance p ⟨capacity, none⟩ h k with
    | ended o =>
      have hk := hforever k
      simp [Program.run?, hr] at hk
    | running r =>
      have hindex : r.index < p.size := by
        refine Nat.lt_of_not_le fun hend => ?_
        have hends := Reaches.ends_of_end ⟨k, hr⟩ (Array.getElem?_eq_none hend)
        obtain ⟨fuel, hfuel⟩ := exists_run?_iff.mpr hends
        rw [hforever fuel] at hfuel
        cases hfuel
      refine ⟨r.machine, fun fuel' hfuel => ?_⟩
      rw [run?_of_limit hfuel, cut_eq_of_index_lt hr hindex]
  · intro k' hle fuel fuel' o o' hrun hrun'
    rw [eq_cut_of_run? hrun, eq_cut_of_run? hrun', Progress.machine_cut, Progress.machine_cut]
    exact log_prefix_log_advance p ⟨capacity, none⟩ h hle (start host)

/-- The second instruction of this program fails. A limit of two steps lets it, and a limit of one
step does not. -/
theorem step_limit_only_cuts_fault_at_limit :
    let p : Program := ⟨#[.nop, .logic .and], #[1, 2]⟩
    (∀ fuel > 2, p.run? ⟨4, some 2⟩ Host.store ∅ fuel =
      some ⟨.error (.located 1 2 .stackUnderflow), 2, .initial ∅⟩) ∧
      ∃ m : Machine Store, ∀ fuel > 1,
        p.run? ⟨4, some 1⟩ Host.store ∅ fuel = some ⟨.error (.stepLimitExceeded 1), 1, m⟩ := by
  intro p
  have hrun : p.run? ⟨4, none⟩ Host.store ∅ 2 =
      some ⟨.error (.located 1 2 .stackUnderflow), 2, .initial ∅⟩ := rfl
  refine ⟨((step_limit_only_cuts p Host.store ∅ 4 2).1 2 _ hrun).1 (by decide), ?_⟩
  obtain ⟨m, -, hm⟩ := ((step_limit_only_cuts p Host.store ∅ 4 1).1 2 _ hrun).2 (by decide)
  exact ⟨m, hm⟩

end StackScript
