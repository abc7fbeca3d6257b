import StackScript.Proofs.Machine.Faults

/-!
# Requests in program order

What an instruction asks of its host is known from the instruction and the machine that it finds
(`Instr.requests`): it asks for the variables among its operands, left to right, and then it may write one,
with the value that it has just read or popped. An instruction that succeeds has made all these requests. One
that fails has made the first of them and has written nothing, for a write is the last thing that an
instruction does (`asks_instr`).

A run makes the requests of its instructions in the order in which it executes them. Main statement
(`requests_in_program_order`).
-/

namespace StackScript

variable {σ α β : Type} {h : Host σ} {capacity : Nat} {m m' m₁ : Machine σ}

/-! ### The requests of an instruction -/

/-- The requests for reading an operand. -/
def Operand.gets : Operand → List Call
  | .direct name => [.get name]
  | .immediate _ | .register _ => []

/-- The requests for writing a value to a place; without a value there is nothing to write. -/
def Place.sets (v? : Option Value) : Place → List Call
  | .direct name => (v?.map (.set name)).toList
  | .register _ => []

/-- The value of an operand, if it has one; that of a variable is what the host answers. -/
def Operand.value? (h : Host σ) (m : Machine σ) : Operand → Option Value
  | .immediate v => some v
  | .register name => m.registers.get? name
  | .direct name => (h.get name m.host).1.toOption

namespace Instr

/-- Where the instruction stores a value that it has read or popped. -/
def destination? : Instr → Option Place
  | .pop dst | .move dst _ => some dst
  | _ => none

/-- The value that the instruction brings to its destination: the topmost one, or that of its source. -/
def carried? (h : Host σ) (m : Machine σ) : Instr → Option Value
  | .pop _ => m.stack.items.head?
  | .move _ src => src.value? h m
  | _ => none

/-- The requests that the instruction makes of its host, in order. -/
def requests (h : Host σ) (m : Machine σ) (i : Instr) : List Call :=
  match i with
  | .push src => src.gets
  | .pop dst => dst.sets (i.carried? h m)
  | .move dst src => src.gets ++ dst.sets (i.carried? h m)
  | .compare lhs rhs => lhs.gets ++ rhs.gets
  | .arith _ | .negate | .adjust _ _ | .logic _ | .jump _ _ | .nop => []

end Instr

/-- Nothing was written by these requests, before the fault `e`: if one of them is to write, then it is the
last, and `e` is the answer of the host, which refuses it. -/
def Host.NothingWritten (h : Host σ) (host : σ) (made : List Call) (e : Fault) : Prop :=
  ∀ name v, .set name v ∈ made → ∃ before fault, made = before ++ [.set name v] ∧ e = .host fault ∧
    h.refusal? (h.afterAll host before) (.set name v) = some fault

namespace Exec

/-! ### Actions that only look -/

/-- Whatever its outcome, the action makes the requests `calls`, none of which is to write, and it leaves the
registers as they are. -/
structure Looks (x : Exec σ α) (h : Host σ) (m : Machine σ) (calls : List Call) : Prop where
  gets : ∀ name v, .set name v ∉ calls
  log : (x.on m).2.log = m.log ++ calls
  host : (x.on m).2.host = h.afterAll m.host calls
  registers : (x.on m).2.registers = m.registers

/-- An action that changes nothing but the stack. -/
theorem looks_of_withStack {x : Exec σ α} {vs : List Value} (hx : (x.on m).2 = m.withStack vs) :
    x.Looks h m [] where
  gets name v := List.not_mem_nil
  log := by
    rw [hx, List.append_nil]
    rfl
  host := by
    rw [hx]
    rfl
  registers := by
    rw [hx]
    rfl

theorem looks_of_eq {x : Exec σ α} (hx : (x.on m).2 = m) : x.Looks h m [] :=
  looks_of_withStack (hx.trans m.withStack_items.symm)

theorem looks_pure (a : α) : (pure a : Exec σ α).Looks h m [] := looks_of_eq rfl

theorem looks_push (v : Value) : (push capacity v : Exec σ Unit).Looks h m [] := by
  by_cases hlt : m.stack.depth < capacity
  · apply looks_of_withStack
    rw [on_push_self, if_pos hlt]
  · apply looks_of_eq
    rw [on_push_self, if_neg hlt]

theorem looks_pop : (pop : Exec σ Value).Looks h m [] := by
  cases hitems : m.stack.items with
  | nil =>
    apply looks_of_eq
    rw [on_pop_self, hitems]
  | cons v vs =>
    apply looks_of_withStack
    rw [on_pop_self, hitems]

theorem looks_number (mnemonic : String) (v : Value) : (number mnemonic v : Exec σ Number).Looks h m [] := by
  apply looks_of_eq
  rw [on_number]
  cases v.number? <;> rfl

theorem looks_goto (target : Target) : (goto target : Exec σ Flow).Looks h m [] := by
  apply looks_of_eq
  unfold goto
  cases target.position <;> rfl

theorem looks_readRegister (name : String) : (readRegister name : Exec σ Value).Looks h m [] := by
  apply looks_of_eq
  rw [on_readRegister]
  cases m.registers.get? name <;> rfl

theorem looks_fetch (name : String) : (fetch h name).Looks h m [.get name] where
  gets name v := by simp
  log := by simp [on_fetch, Machine.log]
  host := by
    rw [on_fetch]
    rfl
  registers := by rw [on_fetch]

theorem looks_read (src : Operand) : (read h src).Looks h m src.gets := by
  cases src with
  | immediate v => exact looks_pure v
  | register name => exact looks_readRegister name
  | direct name => exact looks_fetch name

theorem looks_negate : (instr h capacity .negate).Looks h m [] := by
  cases hitems : m.stack.items with
  | nil =>
    apply looks_of_eq
    rw [on_instr_negate_self, hitems]
  | cons v vs =>
    cases hx : v.number? with
    | none =>
      apply looks_of_eq
      simp only [on_instr_negate_self, hitems, hx]
    | some x =>
      apply looks_of_withStack
      simp only [on_instr_negate_self, hitems, hx]
      rfl

theorem value?_of_on_read {src : Operand} {v : Value} (hread : (read h src).on m = (.ok v, m')) :
    src.value? h m = some v := by
  cases src with
  | immediate w =>
    cases hread
    rfl
  | register name =>
    change (readRegister name).on m = _ at hread
    rw [on_readRegister] at hread
    show m.registers.get? name = some v
    cases hname : m.registers.get? name with
    | none =>
      rw [hname] at hread
      cases hread
    | some w =>
      rw [hname] at hread
      cases hread
      rfl
  | direct name =>
    change (fetch h name).on m = _ at hread
    rw [on_fetch] at hread
    show (h.get name m.host).1.toOption = some v
    cases hanswer : (h.get name m.host).1 with
    | error fault =>
      rw [hanswer] at hread
      cases hread
    | ok w =>
      rw [hanswer] at hread
      cases hread
      rfl

theorem head?_of_on_pop {v : Value} (hpop : (pop : Exec σ Value).on m = (.ok v, m')) :
    m.stack.items.head? = some v := by
  obtain ⟨vs, hitems, -⟩ := on_pop_eq_ok_iff.mp hpop
  rw [hitems]
  rfl

/-! ### Actions that may write -/

/-- The action makes the requests `calls`. If it fails, it has made some of them, from the first on, but has
written nothing, neither a variable nor a register. -/
structure Asks (x : Exec σ α) (h : Host σ) (m : Machine σ) (calls : List Call) : Prop where
  ok : ∀ a m', x.on m = (.ok a, m') → m'.log = m.log ++ calls
  error : ∀ e m', x.on m = (.error e, m') → m'.registers = m.registers ∧
    ∃ made, made <+: calls ∧ m'.log = m.log ++ made ∧ h.NothingWritten m.host made e

variable {x : Exec σ α} {f : α → Exec σ β} {calls calls' : List Call}

theorem nothingWritten_of_gets {host : σ} {e : Fault} (hgets : ∀ name v, .set name v ∉ calls) :
    h.NothingWritten host calls e := by
  intro name v hmem
  exact absurd hmem (hgets name v)

theorem Looks.asks (hx : x.Looks h m calls) : x.Asks h m calls where
  ok a m' hon := by
    have hlog := hx.log
    rw [hon] at hlog
    exact hlog
  error e m' hon := by
    have hlog := hx.log
    have hregisters := hx.registers
    rw [hon] at hlog hregisters
    exact ⟨hregisters, calls, List.prefix_refl calls, hlog, nothingWritten_of_gets hx.gets⟩

/-- Requests to read can go before others. Had a write gone before, and been granted, then a later failure
would be one of an action that has written. -/
theorem Looks.bind (hx : x.Looks h m calls)
    (hf : ∀ a m₁, x.on m = (.ok a, m₁) → (f a).Asks h m₁ calls') : (x >>= f).Asks h m (calls ++ calls') where
  ok b m' hon := by
    obtain ⟨a, m₁, hfirst, hrest⟩ := on_bind_eq_ok_iff.mp hon
    have hlog := hx.log
    rw [hfirst] at hlog
    rw [(hf a m₁ hfirst).ok b m' hrest, ← List.append_assoc]
    exact congrArg (· ++ calls') hlog
  error e m' hon := by
    have hlog := hx.log
    have hhost := hx.host
    have hregisters := hx.registers
    rw [on_bind] at hon
    rcases hfirst : x.on m with ⟨e' | a, m₁⟩
    · rw [hfirst] at hon hlog hregisters
      cases hon
      exact ⟨hregisters, calls, List.prefix_append calls calls', hlog, nothingWritten_of_gets hx.gets⟩
    · rw [hfirst] at hon hlog hhost hregisters
      obtain ⟨hregisters', made, hpart, hlog', hnothing⟩ := (hf a m₁ hfirst).error e m' hon
      refine ⟨hregisters'.trans hregisters, calls ++ made, ?_, ?_, ?_⟩
      · exact (List.prefix_append_right_inj calls).mpr hpart
      · rw [hlog', ← List.append_assoc]
        exact congrArg (· ++ made) hlog
      · intro name v hmem
        rcases List.mem_append.mp hmem with hmem | hmem
        · exact absurd hmem (hx.gets name v)
        · obtain ⟨before, fault, rfl, he, hrefusal⟩ := hnothing name v hmem
          refine ⟨calls ++ before, fault, (List.append_assoc _ _ _).symm, he, ?_⟩
          rw [Host.afterAll_append, ← hhost]
          exact hrefusal

/-- An action without requests goes before others. -/
theorem Looks.bind_nil (hx : x.Looks h m [])
    (hf : ∀ a m₁, x.on m = (.ok a, m₁) → (f a).Asks h m₁ calls) : (x >>= f).Asks h m calls :=
  hx.bind hf

/-- What comes after all requests. -/
theorem Looks.bind_last (hx : x.Looks h m calls) (hf : ∀ a m₁, (f a).Asks h m₁ []) : (x >>= f).Asks h m calls := by
  have hbind := hx.bind fun a m₁ _ => hf a m₁
  rwa [List.append_nil] at hbind

theorem Asks.bind_pure {b : β} (hx : x.Asks h m calls) : (x >>= fun _ => pure b).Asks h m calls where
  ok b' m' hon := by
    obtain ⟨a, m₁, hfirst, hrest⟩ := on_bind_eq_ok_iff.mp hon
    cases hrest
    exact hx.ok a m' hfirst
  error e m' hon := by
    rw [on_bind] at hon
    rcases hfirst : x.on m with ⟨e' | a, m₁⟩
    · rw [hfirst] at hon
      cases hon
      exact hx.error e m' hfirst
    · rw [hfirst] at hon
      cases hon

theorem asks_write (v : Value) (dst : Place) : (write h v dst).Asks h m (dst.sets (some v)) := by
  cases dst with
  | register name =>
    constructor
    · intro u m' hon
      cases hon
      exact (List.append_nil _).symm
    · intro e m' hon
      exact absurd ⟨m', hon⟩ not_raises_writeRegister
  | direct name =>
    constructor
    · intro u m' hon
      change (store h name v).on m = _ at hon
      rw [on_store] at hon
      obtain ⟨-, rfl⟩ := Prod.mk.inj hon
      simp [Place.sets, Machine.log]
    · intro e m' hon
      obtain ⟨fault, rfl, hanswer⟩ := raises_store_iff.mp ⟨m', hon⟩
      change (store h name v).on m = _ at hon
      rw [on_store] at hon
      obtain ⟨-, rfl⟩ := Prod.mk.inj hon
      refine ⟨rfl, [.set name v], List.prefix_refl _, by simp [Machine.log], ?_⟩
      intro name' v' hmem
      cases List.mem_singleton.mp hmem
      refine ⟨[], fault, rfl, rfl, ?_⟩
      show h.refusal? m.host (.set name v) = some fault
      simp only [Host.refusal?, hanswer]

/-! ### Instructions -/

/-- An instruction reads its operands in order, and if it writes, it does so at its end. -/
theorem asks_instr (i : Instr) (m : Machine σ) : (instr h capacity i).Asks h m (i.requests h m) := by
  cases i with
  | push src =>
    apply (looks_read src).bind_last
    intro v m₁
    exact (looks_push v).asks.bind_pure
  | pop dst =>
    apply looks_pop.bind_nil
    intro v m₁ hpop
    have hcarried : (Instr.pop dst).carried? h m = some v := head?_of_on_pop hpop
    show Asks _ h m₁ (dst.sets ((Instr.pop dst).carried? h m))
    rw [hcarried]
    exact (asks_write v dst).bind_pure
  | move dst src =>
    apply (looks_read src).bind
    intro v m₁ hread
    have hcarried : (Instr.move dst src).carried? h m = some v := value?_of_on_read hread
    rw [hcarried]
    exact (asks_write v dst).bind_pure
  | compare lhs rhs =>
    apply (looks_read lhs).bind
    intro a m₁ _
    apply (looks_number _ a).bind_nil
    intro x m₂ _
    apply (looks_read rhs).bind_last
    intro b m₃
    apply (looks_number _ b).bind_nil
    intro y m₄ _
    exact (looks_push _).asks.bind_pure
  | arith op =>
    apply looks_pop.bind_nil
    intro b m₁ _
    apply looks_pop.bind_nil
    intro a m₂ _
    apply (looks_number _ b).bind_nil
    intro y m₃ _
    apply (looks_number _ a).bind_nil
    intro x m₄ _
    exact (looks_push _).asks.bind_pure
  | negate => exact looks_negate.asks
  | adjust delta register =>
    apply (looks_readRegister register).bind_nil
    intro v m₁ _
    apply (looks_number _ v).bind_nil
    intro x m₂ _
    exact (asks_write (h := h) _ (.register register)).bind_pure
  | logic op =>
    apply looks_pop.bind_nil
    intro b m₁ _
    apply looks_pop.bind_nil
    intro a m₂ _
    exact (looks_push _).asks.bind_pure
  | jump condition target =>
    have hpopped : (do
        let v ← Exec.pop
        if condition.holds v then Exec.goto target else Pure.pure .next : Exec σ Flow).Asks h m [] := by
      apply looks_pop.bind_nil
      intro v m₁ _
      split
      · exact (looks_goto target).asks
      · exact (looks_pure _).asks
    cases condition with
    | always => exact (looks_goto target).asks
    | falsy => exact hpopped
    | truthy => exact hpopped
  | nop => exact (looks_pure _).asks

end Exec

/-! ### Runs -/

namespace Run

open Exec

variable {p : Program} {limits : Limits} {r r' : Run σ} {o : Outcome σ} {n : Nat} {i : Instr}

/-- The instructions that a run executes in up to `fuel` steps, in order, each with the machine that it
finds. -/
def trail (p : Program) (limits : Limits) (h : Host σ) : (fuel : Nat) → Run σ → List (Machine σ × Instr)
  | 0, _ => []
  | fuel + 1, r =>
    (r.next? p limits).toList.map (r.machine, ·) ++
      match r.step p limits h with
      | .running r' => trail p limits h fuel r'
      | .ended _ => []

theorem map_snd_trail (p : Program) (limits : Limits) (h : Host σ) (n : Nat) (r : Run σ) :
    (r.trail p limits h n).map (·.2) = r.executed p limits h n := by
  induction n generalizing r with
  | zero => rfl
  | succ n ih =>
    rw [trail, executed, List.map_append, List.map_map]
    congr 1
    · exact List.map_id _
    · cases r.step p limits h with
      | running r' => exact ih r'
      | ended o => rfl

theorem trail_succ (hstep : r.step p limits h = .running r') (hnext : r.next? p limits = some i) :
    r.trail p limits h (n + 1) = (r.machine, i) :: r'.trail p limits h n := by
  rw [trail, hstep, hnext]
  rfl

/-- The trail of a run that has ended is that of the run before its last step, and what that step executes. -/
theorem trail_of_last_step {k : Nat} (hrun : r.advance p limits h k = .running r')
    (hlast : r'.step p limits h = .ended o) (hle : k < n) :
    r.trail p limits h n = r.trail p limits h k ++ (r'.next? p limits).toList.map (r'.machine, ·) := by
  induction k generalizing r n with
  | zero =>
    cases hrun
    obtain ⟨n, rfl⟩ := Nat.exists_eq_succ_of_ne_zero (Nat.ne_of_gt hle)
    show r'.trail p limits h (n + 1) = [] ++ _
    rw [trail, hlast]
    exact List.append_nil _
  | succ k ih =>
    obtain ⟨n, rfl⟩ := Nat.exists_eq_succ_of_ne_zero (Nat.ne_of_gt (Nat.zero_lt_of_lt hle))
    rw [advance] at hrun
    split at hrun
    · next r₁ hstep =>
      obtain ⟨i, _, _, hnext, -, -⟩ := step_eq_running_iff.mp hstep
      rw [trail_succ hstep hnext, trail_succ hstep hnext, ih hrun (Nat.lt_of_succ_lt_succ hle), List.cons_append]
    · cases hrun

/-- The requests of instructions, each on the machine that it finds. -/
def requests (h : Host σ) (ran : List (Machine σ × Instr)) : List Call := ran.flatMap fun x => x.2.requests h x.1

/-- As long as a run goes on, all its instructions have made all their requests. -/
theorem log_of_advance_eq_running (hrun : r.advance p limits h n = .running r') :
    r'.machine.log = r.machine.log ++ requests h (r.trail p limits h n) := by
  induction n generalizing r with
  | zero =>
    cases hrun
    exact (List.append_nil _).symm
  | succ n ih =>
    rw [advance] at hrun
    split at hrun
    · next r₁ hstep =>
      obtain ⟨i, flow, m₁, hnext, hon, rfl⟩ := step_eq_running_iff.mp hstep
      have hfirst : m₁.log = r.machine.log ++ i.requests h r.machine := (asks_instr i r.machine).ok flow m₁ hon
      rw [trail_succ hstep hnext, ih hrun]
      show m₁.log ++ _ = _
      rw [hfirst, List.append_assoc]
      rfl
    · cases hrun

end Run

open Run

/-- The requests of a run are those of the instructions that it executes, in this order, and complete up to
an instruction that fails. That one has made a first part of its requests; it has changed no register, and if
it was to write, then the host has refused that as the last request of the run. -/
theorem requests_in_program_order (p : Program) (limits : Limits) (h : Host σ) (host : σ) (n : Nat) :
    let ran := (start host).trail p limits h n
    ran.map (·.2) = (start host).executed p limits h n ∧
      (∀ r, (start host).advance p limits h n = .running r → r.machine.log = requests h ran) ∧
      ∀ o, p.run? limits h host n = some o →
        (o.machine.log = requests h ran ∧ ∀ k line e, o.result ≠ .error (.located k line e)) ∨
        ∃ before m i k line e made, ran = before ++ [(m, i)] ∧ o.result = .error (.located k line e) ∧
          o.machine.log = requests h before ++ made ∧ made <+: i.requests h m ∧
          h.NothingWritten (h.afterAll host (requests h before)) made e ∧
          o.machine.registers = m.registers := by
  intro ran
  refine ⟨map_snd_trail p limits h n (start host), ?_, ?_⟩
  · intro r hrun
    exact log_of_advance_eq_running hrun
  · intro o hrun
    have hend := run?_eq_some_iff.mp hrun
    obtain ⟨k, r, hr, hlast⟩ := exists_last_step hend
    have hlog : r.machine.log = requests h ((start host).trail p limits h k) := log_of_advance_eq_running hr
    -- The run has ended after `n` steps but not after `k`.
    have hlt : k < n := by
      apply Nat.lt_of_not_le
      intro hle
      rw [advance_eq_ended_of_le hle hend] at hr
      cases hr
    have hran : ran = _ := trail_of_last_step hr hlast hlt
    obtain ⟨hnone, rfl⟩ | ⟨limit, hmax, hle, rfl⟩ | ⟨i, source, m', hnext, hon, -, rfl⟩ := step_eq_ended_cases hlast
    · -- The end of the program, where nothing is executed.
      left
      rw [next?_eq_none_of_code hnone, Option.toList_none, List.map_nil, List.append_nil] at hran
      refine ⟨hran ▸ hlog, ?_⟩
      intro k line e hresult
      cases (result_eq_error_iff.mp hresult).1
    · -- The step limit, which also stops the run before an instruction.
      left
      rw [next?_eq_none_of_limit hmax hle, Option.toList_none, List.map_nil, List.append_nil] at hran
      refine ⟨hran ▸ hlog, ?_⟩
      intro k line e hresult
      cases hresult
    · right
      obtain ⟨hregisters, made, hpart, hlog', hnothing⟩ := (Exec.asks_instr i r.machine).error source m' hon
      rw [hnext] at hran
      refine ⟨_, r.machine, i, _, _, source, made, hran, rfl, ?_, hpart, ?_, hregisters⟩
      · rw [← hlog]
        exact hlog'
      · rw [← hlog, ← host_of_advance_eq_running hr]
        exact hnothing

/-- The value of `x` goes to the stack and from there to `z`. Then it is read once more, to be stored in `y`,
which the host refuses: all requests are made, and the last one is the refused write. -/
theorem requests_in_program_order_refused_write :
    let p : Program := ⟨#[.push (.direct "x"), .pop (.direct "z"), .move (.direct "y") (.direct "x")], #[1, 2, 3]⟩
    let h : Host Store := Host.store.protect ["y"]
    let host : Store := (∅ : Store).insert "x" (.boolean true)
    ∃ o, p.run? ⟨1, none⟩ h host 3 = some o ∧
      o.machine.log = [.get "x", .set "z" (.boolean true), .get "x", .set "y" (.boolean true)] ∧
      ∃ before made e, o.machine.log = requests h before ++ made ∧
        made <+: [.get "x", .set "y" (.boolean true)] ∧
        h.NothingWritten (h.afterAll host (requests h before)) made e := by
  intro p h host
  have hrun : p.run? ⟨1, none⟩ h host 3 =
      some ⟨.error (.located 2 3 (.host (.readOnly "y"))), 3,
        ⟨.empty, ∅, host.insert "z" (.boolean true),
          [.set "y" (.boolean true), .get "x", .set "z" (.boolean true), .get "x"]⟩⟩ := rfl
  refine ⟨_, hrun, rfl, ?_⟩
  obtain ⟨-, -, hends⟩ := requests_in_program_order p ⟨1, none⟩ h host 3
  obtain ⟨-, hnot⟩ | ⟨before, m, i, -, -, e, made, hran, -, hlog, hpart, hnothing, -⟩ := hends _ hrun
  · exact absurd rfl (hnot 2 3 _)
  · have hlast := congrArg List.getLast? hran
    rw [List.getLast?_concat] at hlast
    obtain ⟨rfl, rfl⟩ := Prod.mk.inj (Option.some.inj hlast)
    exact ⟨before, made, e, hlog, hpart, hnothing⟩

end StackScript
