import StackScript.Proofs.Machine.Depth

/-!
# How faults are reported

A fault of the host is its answer to the last request (`inherited_refusedLast`), and what state the host
was in then follows from the requests before it. The run puts the place of the instruction around the
fault that it raises, once. Main statement (`fault_reported_once`): a run that fails reports the step limit,
or the values left at the end of the program, or the fault of the instruction that it executed last, with
its place.
-/

namespace StackScript

variable {σ α β : Type} {h : Host σ} {capacity : Nat} {m m' : Machine σ} {i : Instr}

/-! ### Requests and their answers -/

namespace Host

/-- The fault that the host answers a request with, if it refuses it. -/
def refusal? (h : Host σ) (s : σ) : Call → Option HostFault
  | .get name =>
    match (h.get name s).1 with
    | .ok _ => none
    | .error fault => some fault
  | .set name v =>
    match (h.set name v s).1 with
    | .ok _ => none
    | .error fault => some fault

/-- The state of the host after a request, whether it granted or refused it. -/
def after (h : Host σ) (s : σ) : Call → σ
  | .get name => (h.get name s).2
  | .set name v => (h.set name v s).2

/-- The state of the host after some requests, in order. -/
def afterAll (h : Host σ) (s : σ) (calls : List Call) : σ := calls.foldl h.after s

theorem afterAll_append (h : Host σ) (s : σ) (calls calls' : List Call) :
    h.afterAll s (calls ++ calls') = h.afterAll (h.afterAll s calls) calls' :=
  List.foldl_append

end Host

/-- The second machine has made further requests, and they are all that its host has seen. -/
def Machine.Requested (h : Host σ) (m m' : Machine σ) : Prop :=
  ∃ calls, m'.log = m.log ++ calls ∧ m'.host = h.afterAll m.host calls

theorem Machine.Requested.refl (m : Machine σ) : m.Requested h m := ⟨[], by simp, rfl⟩

theorem Machine.Requested.trans {m₁ m₂ m₃ : Machine σ} (h₁ : m₁.Requested h m₂) (h₂ : m₂.Requested h m₃) :
    m₁.Requested h m₃ := by
  obtain ⟨calls, hlog, hhost⟩ := h₁
  obtain ⟨calls', hlog', hhost'⟩ := h₂
  refine ⟨calls ++ calls', ?_, ?_⟩
  · rw [hlog', hlog, List.append_assoc]
  · rw [hhost', hhost, Host.afterAll_append]

namespace Exec

variable {x : Exec σ α} {f : α → Exec σ β}

/-- The host sees the requests in the log and no others. -/
theorem kept_requested (h : Host σ) (capacity : Nat) : Kept h capacity (Machine.Requested h) where
  refl := .refl
  trans := .trans
  push v m := by
    rw [on_push_self]
    split <;> exact .refl m
  pop m := by
    rw [on_pop_self]
    split <;> exact .refl m
  replaceTop m v := .refl m
  writeRegister name v m := .refl m
  fetch name m := by
    rw [on_fetch]
    exact ⟨[.get name], by simp [Machine.log], rfl⟩
  store name v m := by
    rw [on_store]
    exact ⟨[.set name v], by simp [Machine.log], rfl⟩

/-- If the action fails with a fault of the host, then that is the host's answer to the last request. -/
def RefusedLast (h : Host σ) (x : Exec σ α) : Prop :=
  ∀ m m' fault, x.on m = (.error (.host fault), m') →
    ∃ calls c, m'.log = m.log ++ calls ++ [c] ∧ h.refusal? (h.afterAll m.host calls) c = some fault

theorem refusedLast_of_not_raises (hx : ∀ m fault, ¬x.Raises m (.host fault)) : x.RefusedLast h := by
  intro m m' fault hon
  exact absurd ⟨m', hon⟩ (hx m fault)

theorem RefusedLast.bind (hkeeps : Keeps (Machine.Requested h) x) (hx : x.RefusedLast h)
    (hf : ∀ a, (f a).RefusedLast h) : (x >>= f).RefusedLast h := by
  intro m m' fault hon
  have hrequested := hkeeps m
  rw [on_bind] at hon
  rcases hfirst : x.on m with ⟨e | a, m₁⟩
  · rw [hfirst] at hon
    cases hon
    exact hx m m' fault hfirst
  · rw [hfirst] at hon hrequested
    obtain ⟨calls, hlog, hhost⟩ := hrequested
    obtain ⟨calls', c, hlog', hrefusal⟩ := hf a m₁ m' fault hon
    refine ⟨calls ++ calls', c, ?_, ?_⟩
    · rw [hlog', hlog, List.append_assoc m.log]
    · rw [Host.afterAll_append, ← hhost]
      exact hrefusal

theorem refusedLast_fetch (name : String) : (fetch h name).RefusedLast h := by
  intro m m' fault hon
  obtain ⟨_, ⟨⟩, hanswer⟩ := raises_fetch_iff.mp ⟨m', hon⟩
  rw [on_fetch] at hon
  obtain ⟨-, rfl⟩ := Prod.mk.inj hon
  refine ⟨[], .get name, by simp [Machine.log], ?_⟩
  show h.refusal? m.host (.get name) = some fault
  simp only [Host.refusal?, hanswer]

theorem refusedLast_store (name : String) (v : Value) : (store h name v).RefusedLast h := by
  intro m m' fault hon
  obtain ⟨_, ⟨⟩, hanswer⟩ := raises_store_iff.mp ⟨m', hon⟩
  rw [on_store] at hon
  obtain ⟨-, rfl⟩ := Prod.mk.inj hon
  refine ⟨[], .set name v, by simp [Machine.log], ?_⟩
  show h.refusal? m.host (.set name v) = some fault
  simp only [Host.refusal?, hanswer]

/-- Only requests can fail with a fault of the host, so an instruction that does so has just made one. -/
theorem inherited_refusedLast (h : Host σ) (capacity : Nat) :
    Inherited h capacity fun _ x => Keeps (Machine.Requested h) x ∧ x.RefusedLast h := by
  have hkept := kept_requested h capacity
  have hkeeps := hkept.inherited
  exact
    { pure := fun a => ⟨hkeeps.pure a, refusedLast_of_not_raises (by simp)⟩
      bind := fun hx hf => ⟨hkept.bind hx.1 fun a => (hf a).1, hx.2.bind hx.1 fun a => (hf a).2⟩
      push := fun v => ⟨hkeeps.push v, refusedLast_of_not_raises (by simp)⟩
      pop := ⟨hkeeps.pop, refusedLast_of_not_raises (by simp)⟩
      negate := ⟨hkeeps.negate, refusedLast_of_not_raises (by simp [raises_negate_iff])⟩
      readRegister := fun name => ⟨hkeeps.readRegister name, refusedLast_of_not_raises (by simp)⟩
      writeRegister := fun name v => ⟨hkeeps.writeRegister name v, refusedLast_of_not_raises (by simp)⟩
      number := fun mnemonic v => ⟨hkeeps.number mnemonic v, refusedLast_of_not_raises (by simp)⟩
      fetch := fun name => ⟨hkeeps.fetch name, refusedLast_fetch name⟩
      store := fun name v => ⟨hkeeps.store name v, refusedLast_store name v⟩
      goto := fun target => ⟨hkeeps.goto target, refusedLast_of_not_raises (by simp [raises_goto_iff])⟩ }

end Exec

/-! ### Runs -/

namespace Run

open Exec

variable {p : Program} {limits : Limits} {host : σ} {r : Run σ} {o : Outcome σ} {n : Nat} {e : Fault}

/-- The requests in the log are all that the host has seen. -/
theorem host_of_advance_eq_running (hrun : (start host).advance p limits h n = .running r) :
    r.machine.host = h.afterAll host r.machine.log := by
  have hrequested := kept_advance (kept_requested h limits.stackCapacity) p n (start host)
  rw [hrun] at hrequested
  obtain ⟨calls, hlog, hhost⟩ := hrequested
  rw [show r.machine.log = calls from hlog]
  exact hhost

/-- A step limit is never passed. -/
theorem steps_le_of_advance {k : Nat} (hmax : limits.maxSteps = some k)
    (hrun : (start host).advance p limits h n = .running r) : r.steps ≤ k := by
  refine invariant_of_advance (I := fun r => r.steps ≤ k) ?_ (Nat.zero_le k) hrun
  intro r r' _ hstep
  obtain ⟨i, flow, m', hnext, -, rfl⟩ := step_eq_running_iff.mp hstep
  apply Nat.lt_of_not_le
  intro hle
  rw [next?_eq_none_of_limit hmax hle] at hnext
  cases hnext

end Run

open Run

/-- A run that fails reports one of three things. The step limit: then it has executed as many
instructions. Values left at the end of the program: there are at least two, and the stack has room for
them. Or the fault of the instruction that it executed last, with the index of that instruction and its
line: then the fault fits the instruction, and if the host raised it, it is the host's answer to the last
request. -/
theorem fault_reported_once (p : Program) (limits : Limits) (h : Host σ) (host : σ) {fuel : Nat}
    {o : Outcome σ} {e : Fault} (hrun : p.run? limits h host fuel = some o) (herror : o.result = .error e) :
    (∃ k, e = .stepLimitExceeded k ∧ limits.maxSteps = some k ∧ o.steps = k) ∨
      (∃ d, e = .stackImbalance d ∧ d = o.machine.stack.depth ∧ 2 ≤ d ∧ d ≤ limits.stackCapacity) ∨
      ∃ r i source, (start host).advance p limits h r.steps = .running r ∧ r.next? p limits = some i ∧
        r.step p limits h = .ended o ∧ o.steps = r.steps + 1 ∧ r.index < p.size ∧ p.code[r.index]? = some i ∧
        e = .located r.index (p.lines[r.index]?.getD 0) source ∧ i.CanRaise limits.stackCapacity source ∧
        ∀ fault, source = .host fault →
          ∃ calls c, o.machine.log = calls ++ [c] ∧ h.refusal? (h.afterAll host calls) c = some fault := by
  obtain ⟨n, r, hr, hlast⟩ := exists_last_step (run?_eq_some_iff.mp hrun)
  have hsteps : r.steps = n := (steps_of_advance_eq_running hr).trans (Nat.zero_add n)
  obtain ⟨-, rfl⟩ | ⟨k, hmax, hle, rfl⟩ | ⟨i, source, m', hnext, hon, hcan, rfl⟩ := step_eq_ended_cases hlast
  · -- The end of the program.
    obtain ⟨rfl, htwo⟩ := result_eq_error_iff.mp herror
    have hdepth := kept_advance (Exec.kept_depth_le h limits.stackCapacity) p n (start host)
    rw [hr] at hdepth
    exact .inr (.inl ⟨_, rfl, rfl, htwo, hdepth (Nat.zero_le _)⟩)
  · -- The step limit.
    cases herror
    exact .inl ⟨k, rfl, hmax, Nat.le_antisymm (steps_le_of_advance hmax hr) hle⟩
  · -- An instruction.
    cases herror
    have hcode := code_of_next? hnext
    have hlt : r.index < p.size := (Array.getElem?_eq_some_iff.mp hcode).1
    refine .inr (.inr ⟨r, i, source, hsteps ▸ hr, hnext, hlast, rfl, hlt, hcode, rfl, hcan, ?_⟩)
    rintro fault rfl
    obtain ⟨calls, c, hlog, hrefusal⟩ :=
      ((Exec.inherited_refusedLast h limits.stackCapacity).instr i).2 r.machine m' fault hon
    refine ⟨r.machine.log ++ calls, c, hlog, ?_⟩
    rw [Host.afterAll_append, ← host_of_advance_eq_running hr]
    exact hrefusal

/-- A write that the host refuses, by an instruction of the ninth line: the fault has that line, and it is the
answer to the write, not to the read before it. -/
theorem fault_reported_once_refused_write :
    let p : Program := ⟨#[.nop, .move (.direct "y") (.direct "x")], #[7, 9]⟩
    let h : Host Store := Host.store.protect ["y"]
    let host : Store := (∅ : Store).insert "x" .undefined
    ∃ o, p.run? ⟨0, some 2⟩ h host 2 = some o ∧ o.result = .error (.located 1 9 (.host (.readOnly "y"))) ∧
      o.machine.log = [.get "x", .set "y" .undefined] ∧ p.lines[1]?.getD 0 = 9 ∧
      ∃ calls c, o.machine.log = calls ++ [c] ∧ h.refusal? (h.afterAll host calls) c = some (.readOnly "y") := by
  intro p h host
  have hrun : p.run? ⟨0, some 2⟩ h host 2 =
      some ⟨.error (.located 1 9 (.host (.readOnly "y"))), 2,
        ⟨.empty, ∅, host, [.set "y" .undefined, .get "x"]⟩⟩ := rfl
  obtain ⟨_, ⟨⟩, -⟩ | ⟨_, ⟨⟩, -⟩ | ⟨r, i, source, -, -, -, -, -, -, hlocated, -, hhost⟩ :=
    fault_reported_once p ⟨0, some 2⟩ h host hrun rfl
  obtain ⟨hindex, hline, rfl⟩ := Fault.located.inj hlocated
  rw [← hindex] at hline
  exact ⟨_, hrun, rfl, rfl, hline.symm, hhost _ rfl⟩

end StackScript
