import StackScript.Machine.Run
import StackScript.Proofs.Machine.Actions

/-!
# Runs

`Run.advance` composes (`advance_add`), so what a run does can be put together from what parts of it
do: `Reaches` says that a run comes to a later one, and `Ends` that it comes to an outcome, whatever
number of steps this takes.

All that a single step can do is said by `step_cases`; what instructions keep, runs keep (`kept_advance`).
-/

namespace StackScript

/-- Where control goes from an index. -/
def Flow.after (index : Nat) : Flow → Nat
  | .next => index + 1
  | .jump k => k

theorem Fault.root_locate (f : Fault) (index line : Nat) : (f.locate index line).root = f.root := by
  cases f <;> rfl

namespace Progress

variable {σ : Type}

/-- The machine as a run has left it so far, or at its end. -/
def machine : Progress σ → Machine σ
  | .running r => r.machine
  | .ended o => o.machine

/-- The number of instructions executed so far, or in all. -/
def steps : Progress σ → Nat
  | .running r => r.steps
  | .ended o => o.steps

end Progress

namespace Run

variable {σ : Type} {p : Program} {limits : Limits} {h : Host σ} {r r' r'' : Run σ} {o : Outcome σ}

theorem advance_add (n k : Nat) (r : Run σ) :
    r.advance p limits h (n + k) =
      match r.advance p limits h n with
      | .running r' => r'.advance p limits h k
      | .ended o => .ended o := by
  induction n generalizing r with
  | zero => rw [Nat.zero_add]; rfl
  | succ n ih =>
    simp only [Nat.succ_add, advance]
    cases r.step p limits h with
    | running r' => exact ih r'
    | ended o => rfl

/-- The run comes to another one. -/
def Reaches (p : Program) (limits : Limits) (h : Host σ) (r r' : Run σ) : Prop :=
  ∃ n, r.advance p limits h n = .running r'

/-- The run comes to an end. -/
def Ends (p : Program) (limits : Limits) (h : Host σ) (r : Run σ) (o : Outcome σ) : Prop :=
  ∃ n, r.advance p limits h n = .ended o

theorem Reaches.trans (h₁ : r.Reaches p limits h r') (h₂ : r'.Reaches p limits h r'') :
    r.Reaches p limits h r'' := by
  obtain ⟨n, hn⟩ := h₁
  obtain ⟨k, hk⟩ := h₂
  exact ⟨n + k, by rw [advance_add, hn]; exact hk⟩

theorem Reaches.ends (h₁ : r.Reaches p limits h r') (h₂ : r'.Ends p limits h o) :
    r.Ends p limits h o := by
  obtain ⟨n, hn⟩ := h₁
  obtain ⟨k, hk⟩ := h₂
  exact ⟨n + k, by rw [advance_add, hn]; exact hk⟩

theorem reaches_of_step (hstep : r.step p limits h = .running r') : r.Reaches p limits h r' :=
  ⟨1, by rw [advance, hstep]; rfl⟩

theorem ends_of_step (hstep : r.step p limits h = .ended o) : r.Ends p limits h o :=
  ⟨1, by rw [advance, hstep]⟩

/-- A run that has ended stays so. -/
theorem advance_eq_ended_of_le {n k : Nat} (hle : n ≤ k) (hend : r.advance p limits h n = .ended o) :
    r.advance p limits h k = .ended o := by
  obtain ⟨d, rfl⟩ := Nat.exists_eq_add_of_le hle
  rw [advance_add, hend]

theorem Ends.unique {o' : Outcome σ} (hends : r.Ends p limits h o) (hends' : r.Ends p limits h o') :
    o = o' := by
  obtain ⟨n, hn⟩ := hends
  obtain ⟨k, hk⟩ := hends'
  have hmax := advance_eq_ended_of_le (Nat.le_max_left n k) hn
  rw [advance_eq_ended_of_le (Nat.le_max_right n k) hk] at hmax
  exact (Progress.ended.inj hmax).symm

/-- What a run comes to lies on its way to its end. -/
theorem Reaches.ends_iff (hreaches : r.Reaches p limits h r') :
    r'.Ends p limits h o ↔ r.Ends p limits h o := by
  constructor
  · exact hreaches.ends
  · rintro ⟨k, hk⟩
    obtain ⟨n, hn⟩ := hreaches
    have hend := advance_eq_ended_of_le (Nat.le_add_left k n) hk
    rw [advance_add, hn] at hend
    exact ⟨k, hend⟩

theorem run?_eq_some_iff {host : σ} {fuel : Nat} :
    p.run? limits h host fuel = some o ↔ (start host).advance p limits h fuel = .ended o := by
  unfold Program.run?
  cases (start host).advance p limits h fuel with
  | running r => simp
  | ended o' => simp

theorem exists_run?_iff {host : σ} :
    (∃ fuel, p.run? limits h host fuel = some o) ↔ (start host).Ends p limits h o :=
  exists_congr fun _ => run?_eq_some_iff

/-! ### Starting a run -/

/-- All runs start alike. The capacity decides only whether there is a run. -/
theorem start?_eq (limits : Limits) (host : σ) :
    start? limits host = if Stack.Fits limits.stackCapacity then some (start host) else none := by
  unfold start? Machine.initial? Stack.withCapacity?
  split <;> rfl

theorem launch?_eq (p : Program) (limits : Limits) (h : Host σ) (host : σ) (fuel : Nat) :
    p.launch? limits h host fuel =
      if Stack.Fits limits.stackCapacity then some ((start host).advance p limits h fuel) else none := by
  unfold Program.launch?
  rw [start?_eq]
  split <;> rfl

/-- A program that is started has a stack. -/
theorem launch?_eq_some_iff {host : σ} {fuel : Nat} {x : Progress σ} :
    p.launch? limits h host fuel = some x ↔
      Stack.Fits limits.stackCapacity ∧ (start host).advance p limits h fuel = x := by
  rw [launch?_eq]
  split
  · next hfits => simp [hfits]
  · next hnot => simp [hnot]

theorem exists_launch?_iff {host : σ} :
    (∃ fuel, p.launch? limits h host fuel = some (.ended o)) ↔
      Stack.Fits limits.stackCapacity ∧ (start host).Ends p limits h o := by
  simp only [launch?_eq_some_iff, exists_and_left]
  rfl

/-! ### One step without a step limit -/

variable {i : Instr} {m m' : Machine σ} {k s : Nat}

theorem step_of_next (hlimit : limits.maxSteps = none) (hi : p.code[k]? = some i)
    (hexec : (Exec.instr h limits.stackCapacity i).on m = (.ok .next, m')) :
    (⟨m, k, s⟩ : Run σ).step p limits h = .running ⟨m', k + 1, s + 1⟩ := by
  simp only [step, hi, hlimit, execute]
  rw [Exec.on] at hexec
  rw [hexec]

theorem step_of_fault {e : Fault} (hlimit : limits.maxSteps = none) (hi : p.code[k]? = some i)
    (hexec : (Exec.instr h limits.stackCapacity i).on m = (.error e, m')) :
    (⟨m, k, s⟩ : Run σ).step p limits h = .ended ⟨.error (e.locate k (p.line k)), s + 1, m'⟩ := by
  simp only [step, hi, hlimit, execute]
  rw [Exec.on] at hexec
  rw [hexec]

theorem step_of_end (hi : p.code[k]? = none) :
    (⟨m, k, s⟩ : Run σ).step p limits h = .ended ⟨result m, s, m⟩ := by
  simp only [step, hi]

/-- A run that leaves the program ends there. -/
theorem Reaches.ends_of_end (hreaches : r.Reaches p limits h ⟨m, k, s⟩) (hi : p.code[k]? = none) :
    r.Ends p limits h ⟨result m, s, m⟩ :=
  hreaches.ends (ends_of_step (step_of_end hi))

/-! ### What a step does -/

/-- What becomes of a run when its next instruction has ended. -/
def proceed (p : Program) (r : Run σ) : Except Fault Flow × Machine σ → Progress σ
  | (.ok flow, m) => .running ⟨m, flow.after r.index, r.steps + 1⟩
  | (.error e, m) => .ended ⟨.error (e.locate r.index (p.line r.index)), r.steps + 1, m⟩

theorem execute_eq (i : Instr) :
    r.execute p limits h i = r.proceed p ((Exec.instr h limits.stackCapacity i).on r.machine) := by
  unfold execute Exec.on
  rcases (Exec.instr h limits.stackCapacity i).run.run r.machine with ⟨_ | _ | _, _⟩ <;> rfl

theorem machine_proceed (x : Except Fault Flow × Machine σ) : (r.proceed p x).machine = x.2 := by
  rcases x with ⟨_ | _, _⟩ <;> rfl

/-- An instruction counts, also if it fails. -/
theorem steps_proceed (x : Except Fault Flow × Machine σ) : (r.proceed p x).steps = r.steps + 1 := by
  rcases x with ⟨_ | _, _⟩ <;> rfl

theorem exhausted_iff : r.exhausted limits = true ↔ ∃ k, limits.maxSteps = some k ∧ k ≤ r.steps := by
  unfold exhausted
  cases limits.maxSteps <;> simp

/-- A step finds the end of the program, or the limit, or it executes the next instruction. -/
theorem step_cases (p : Program) (limits : Limits) (h : Host σ) (r : Run σ) :
    (p.code[r.index]? = none ∧ r.next? p limits = none ∧
        r.step p limits h = .ended ⟨result r.machine, r.steps, r.machine⟩) ∨
      (∃ i k, p.code[r.index]? = some i ∧ limits.maxSteps = some k ∧ k ≤ r.steps ∧
        r.next? p limits = none ∧
        r.step p limits h = .ended ⟨.error (.stepLimitExceeded k), r.steps, r.machine⟩) ∨
      ∃ i, p.code[r.index]? = some i ∧ r.next? p limits = some i ∧
        r.step p limits h = r.execute p limits h i := by
  unfold next? step
  cases hcode : p.code[r.index]? with
  | none => simp
  | some i =>
    by_cases hex : r.exhausted limits = true
    · obtain ⟨k, hmax, hle⟩ := exhausted_iff.mp hex
      exact .inr (.inl ⟨i, k, rfl, hmax, hle, if_pos hex, by simp [hmax, hle]⟩)
    · refine .inr (.inr ⟨i, rfl, if_neg hex, ?_⟩)
      cases hmax : limits.maxSteps with
      | none => rfl
      | some k => exact if_neg fun hle => hex (exhausted_iff.mpr ⟨k, hmax, hle⟩)

theorem code_of_next? (hnext : r.next? p limits = some i) : p.code[r.index]? = some i := by
  unfold next? at hnext
  split at hnext
  · cases hnext
  · exact hnext

theorem next?_eq_none_of_code (hcode : p.code[r.index]? = none) : r.next? p limits = none := by
  rw [next?, hcode]
  split <;> rfl

theorem next?_eq_none_of_limit {k : Nat} (hmax : limits.maxSteps = some k) (hle : k ≤ r.steps) :
    r.next? p limits = none :=
  if_pos (exhausted_iff.mpr ⟨k, hmax, hle⟩)

/-- A step leads on if it executes an instruction that succeeds. -/
theorem step_eq_running_iff :
    r.step p limits h = .running r' ↔
      ∃ i flow m', r.next? p limits = some i ∧
        (Exec.instr h limits.stackCapacity i).on r.machine = (.ok flow, m') ∧
        r' = ⟨m', flow.after r.index, r.steps + 1⟩ := by
  obtain ⟨-, hnext, hstep⟩ | ⟨_, _, _, _, _, hnext, hstep⟩ | ⟨i, -, hnext, hstep⟩ := step_cases p limits h r
  · simp [hstep, hnext]
  · simp [hstep, hnext]
  · rw [hstep, hnext, execute_eq]
    rcases hon : (Exec.instr h limits.stackCapacity i).on r.machine with ⟨e | flow, m'⟩
    · simp [proceed, hon]
    · constructor
      · rintro ⟨⟩
        exact ⟨i, flow, m', rfl, hon, rfl⟩
      · rintro ⟨_, _, _, ⟨⟩, hon', rfl⟩
        cases hon.symm.trans hon'
        rfl

/-! ### Along a run -/

/-- What each step preserves holds of every run that is come to. -/
theorem invariant_of_advance {I : Run σ → Prop} {n : Nat}
    (hstep : ∀ r r', I r → r.step p limits h = .running r' → I r') (hr : I r)
    (hrun : r.advance p limits h n = .running r') : I r' := by
  induction n generalizing r with
  | zero =>
    cases hrun
    exact hr
  | succ n ih =>
    rw [advance] at hrun
    split at hrun
    · next r₁ hfirst => exact ih (hstep r r₁ hr hfirst) hrun
    · cases hrun

/-- A run ends in a step from a run that it has come to. -/
theorem exists_last_step {n : Nat} (hend : r.advance p limits h n = .ended o) :
    ∃ k r', r.advance p limits h k = .running r' ∧ r'.step p limits h = .ended o := by
  induction n generalizing r with
  | zero => cases hend
  | succ n ih =>
    rw [advance] at hend
    split at hend
    · next r₁ hfirst =>
      obtain ⟨k, r', hk, hlast⟩ := ih hend
      refine ⟨k + 1, r', ?_, hlast⟩
      rw [advance, hfirst]
      exact hk
    · next o' hfirst =>
      cases hend
      exact ⟨0, r, rfl, hfirst⟩

/-! ### What runs keep -/

theorem steps_of_step_eq_running (hstep : r.step p limits h = .running r') : r'.steps = r.steps + 1 := by
  obtain ⟨i, flow, m', -, -, rfl⟩ := step_eq_running_iff.mp hstep
  rfl

/-- A run that goes on has executed an instruction in each step. -/
theorem steps_of_advance_eq_running {n : Nat} (hrun : r.advance p limits h n = .running r') :
    r'.steps = r.steps + n := by
  induction n generalizing r with
  | zero =>
    cases hrun
    rfl
  | succ n ih =>
    rw [advance] at hrun
    split at hrun
    · next r₁ hstep =>
      rw [ih hrun, steps_of_step_eq_running hstep, Nat.add_assoc, Nat.add_comm 1]
    · cases hrun

theorem steps_step (p : Program) (limits : Limits) (h : Host σ) (r : Run σ) :
    r.steps ≤ (r.step p limits h).steps ∧ (r.step p limits h).steps ≤ r.steps + 1 := by
  obtain ⟨-, -, hstep⟩ | ⟨_, _, _, _, _, _, hstep⟩ | ⟨i, -, -, hstep⟩ := step_cases p limits h r
  · simp [hstep, Progress.steps]
  · simp [hstep, Progress.steps]
  · simp [hstep, execute_eq, steps_proceed]

theorem steps_advance (p : Program) (limits : Limits) (h : Host σ) (n : Nat) (r : Run σ) :
    r.steps ≤ (r.advance p limits h n).steps ∧ (r.advance p limits h n).steps ≤ r.steps + n := by
  induction n generalizing r with
  | zero => exact ⟨Nat.le_refl _, Nat.le_refl _⟩
  | succ n ih =>
    have hone := steps_step p limits h r
    rw [advance]
    split
    · next r' hstep =>
      have hrest := ih r'
      rw [hstep] at hone
      simp only [Progress.steps] at hone
      omega
    · next o hstep =>
      rw [hstep] at hone
      omega

variable {R : Machine σ → Machine σ → Prop}

/-- What instructions keep, a step keeps. -/
theorem kept_step (hR : Exec.Kept h limits.stackCapacity R) (p : Program) (r : Run σ) :
    R r.machine (r.step p limits h).machine := by
  obtain ⟨-, -, hstep⟩ | ⟨_, _, _, _, _, _, hstep⟩ | ⟨i, -, -, hstep⟩ := step_cases p limits h r
  · rw [hstep]
    exact hR.refl _
  · rw [hstep]
    exact hR.refl _
  · rw [hstep, execute_eq, machine_proceed]
    exact hR.instr i r.machine

theorem kept_advance (hR : Exec.Kept h limits.stackCapacity R) (p : Program) (n : Nat) (r : Run σ) :
    R r.machine (r.advance p limits h n).machine := by
  induction n generalizing r with
  | zero => exact hR.refl _
  | succ n ih =>
    have hone := kept_step hR p r
    rw [advance]
    split
    · next r' hstep =>
      rw [hstep] at hone
      exact hR.trans hone (ih r')
    · next o hstep =>
      rw [hstep] at hone
      exact hone

/-- Further steps only add requests. -/
theorem log_prefix_log_advance (p : Program) (limits : Limits) (h : Host σ) {n k : Nat} (hle : n ≤ k) (r : Run σ) :
    (r.advance p limits h n).machine.log <+: (r.advance p limits h k).machine.log := by
  obtain ⟨d, rfl⟩ := Nat.exists_eq_add_of_le hle
  rw [advance_add]
  cases r.advance p limits h n with
  | running r' => exact kept_advance (Exec.kept_log h limits.stackCapacity) p d r'
  | ended o => exact List.prefix_refl _

theorem steps_advance_le (p : Program) (limits : Limits) (h : Host σ) {n k : Nat} (hle : n ≤ k) (r : Run σ) :
    (r.advance p limits h n).steps ≤ (r.advance p limits h k).steps := by
  obtain ⟨d, rfl⟩ := Nat.exists_eq_add_of_le hle
  rw [advance_add]
  cases r.advance p limits h n with
  | running r' => exact (steps_advance p limits h d r').1
  | ended o => exact Nat.le_refl _

end Run
end StackScript
