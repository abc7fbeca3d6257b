import StackScript.Proofs.Machine.Raises

/-!
# The depth of the stack

An instruction that succeeds changes the depth of the stack by an amount that depends on nothing but
its kind (`shifts_instr`), and one that fails for want of values, or of room for them, fails on the
depth it finds (`raises_underflow_iff`, `raises_overflow_iff`). So the depth is a count over the
instructions executed, on whatever way through the program, and it decides the stack faults and the
result of a run (`depth_accounts_for_run`).
-/

namespace StackScript

variable {σ α β : Type} {h : Host σ} {capacity : Nat} {m m' : Machine σ} {i : Instr}

/-! ### Stack effects -/

namespace Instr

/-- Whether the instruction adds a value to the stack. -/
def pushes : Instr → Bool
  | .push _ | .compare _ _ => true
  | _ => false

/-- Whether the instruction leaves a value fewer on the stack. -/
def pops : Instr → Bool
  | .pop _ | .arith _ | .logic _ | .jump .falsy _ | .jump .truthy _ => true
  | _ => false

/-- How many values the instruction needs on the stack. -/
def demand : Instr → Nat
  | .pop _ | .negate | .jump .falsy _ | .jump .truthy _ => 1
  | .arith _ | .logic _ => 2
  | _ => 0

/-- By how much the instruction changes the depth of the stack. -/
def shift (i : Instr) : Int := i.pushes.toNat - i.pops.toNat

/-- The operands that the instruction is to put on the stack, or to compare, can be read, and
those of a comparison are numbers. -/
def OperandsRead (h : Host σ) (m : Machine σ) : Instr → Prop
  | .push src => ∃ v m', (Exec.read h src).on m = (.ok v, m')
  | .compare lhs rhs =>
    ∃ x y m₁ m₂, (Exec.read h lhs).on m = (.ok (.number x), m₁) ∧
      (Exec.read h rhs).on m₁ = (.ok (.number y), m₂)
  | _ => True

end Instr

namespace Exec

/-- Where the action succeeds, it changes the depth of the stack by `d`. -/
def Shifts (x : Exec σ α) (d : Int) : Prop :=
  ∀ m a m', x.on m = (.ok a, m') → (m'.stack.depth : Int) = m.stack.depth + d

variable {x : Exec σ α} {f : α → Exec σ β} {d d' : Int}

theorem Shifts.bind (hx : x.Shifts d) (hf : ∀ a, (f a).Shifts d') : (x >>= f).Shifts (d + d') := by
  intro m b m' hon
  obtain ⟨a, m₁, hfirst, hrest⟩ := on_bind_eq_ok_iff.mp hon
  have h₁ := hx m a m₁ hfirst
  have h₂ := hf a m₁ b m' hrest
  omega

/-- An action that leaves the stack alone. -/
theorem shifts_of_stack_eq (hx : ∀ m, (x.on m).2.stack = m.stack) : x.Shifts 0 := by
  intro m a m' hon
  have hstack := hx m
  rw [hon] at hstack
  rw [hstack, Int.add_zero]

theorem shifts_pure (a : α) : (pure a : Exec σ α).Shifts 0 := shifts_of_stack_eq fun _ => rfl

theorem shifts_read (h : Host σ) (src : Operand) : (read h src).Shifts 0 :=
  shifts_of_stack_eq fun _ => stack_on_read src

theorem shifts_write (h : Host σ) (v : Value) (dst : Place) : (write h v dst).Shifts 0 :=
  shifts_of_stack_eq fun _ => stack_on_write dst

theorem shifts_number (mnemonic : String) (v : Value) : (number mnemonic v : Exec σ Number).Shifts 0 := by
  intro m y m' hon
  obtain ⟨-, rfl⟩ := on_number_eq_ok_iff.mp hon
  exact (Int.add_zero _).symm

theorem shifts_goto (target : Target) : (goto target : Exec σ Flow).Shifts 0 := by
  refine shifts_of_stack_eq fun m => ?_
  unfold goto
  split <;> rfl

theorem shifts_push (capacity : Nat) (v : Value) : (push capacity v : Exec σ Unit).Shifts 1 := by
  intro m u m' hon
  obtain ⟨-, rfl⟩ := on_push_eq_ok_iff.mp hon
  rw [m.stack.depth_eq]
  rfl

theorem shifts_pop : (pop : Exec σ Value).Shifts (-1) := by
  intro m v m' hon
  obtain ⟨vs, hitems, rfl⟩ := on_pop_eq_ok_iff.mp hon
  rw [m.stack.depth_eq, hitems, List.length_cons]
  show ((vs.length : Nat) : Int) = _
  omega

/-- The depth after an instruction is known beforehand. -/
theorem shifts_instr (i : Instr) : (instr h capacity i).Shifts i.shift := by
  cases i with
  | push src =>
    show (instr h capacity (.push src)).Shifts (0 + (1 + 0))
    exact (shifts_read h src).bind fun v => (shifts_push capacity v).bind fun _ => shifts_pure _
  | pop dst =>
    show (instr h capacity (.pop dst)).Shifts (-1 + (0 + 0))
    exact shifts_pop.bind fun v => (shifts_write h v dst).bind fun _ => shifts_pure _
  | move dst src =>
    show (instr h capacity (.move dst src)).Shifts (0 + (0 + 0))
    exact (shifts_read h src).bind fun v => (shifts_write h v dst).bind fun _ => shifts_pure _
  | compare lhs rhs =>
    show (instr h capacity (.compare lhs rhs)).Shifts (0 + (0 + (0 + (0 + (1 + 0)))))
    exact (shifts_read h lhs).bind fun a => (shifts_number _ a).bind fun x =>
      (shifts_read h rhs).bind fun b => (shifts_number _ b).bind fun y =>
        (shifts_push capacity _).bind fun _ => shifts_pure _
  | arith op =>
    show (instr h capacity (.arith op)).Shifts (-1 + (-1 + (0 + (0 + (1 + 0)))))
    exact shifts_pop.bind fun b => shifts_pop.bind fun a => (shifts_number _ b).bind fun y =>
      (shifts_number _ a).bind fun x => (shifts_push capacity _).bind fun _ => shifts_pure _
  | negate =>
    intro m flow m' hon
    rw [on_instr_negate_self] at hon
    split at hon
    · cases hon
    · next v vs hitems =>
      split at hon
      · cases hon
        rw [m.stack.depth_eq, hitems]
        rfl
      · cases hon
  | adjust delta register =>
    show (instr h capacity (.adjust delta register)).Shifts (0 + (0 + (0 + 0)))
    exact (shifts_read h (.register register)).bind fun v => (shifts_number _ v).bind fun x =>
      (shifts_write h _ (.register register)).bind fun _ => shifts_pure _
  | logic op =>
    show (instr h capacity (.logic op)).Shifts (-1 + (-1 + (1 + 0)))
    exact shifts_pop.bind fun b => shifts_pop.bind fun a =>
      (shifts_push capacity _).bind fun _ => shifts_pure _
  | jump condition target =>
    have hpopped : (do
        let v ← Exec.pop
        if condition.holds v then Exec.goto target else Pure.pure .next : Exec σ Flow).Shifts (-1 + 0) := by
      refine shifts_pop.bind fun v => ?_
      split
      · exact shifts_goto target
      · exact shifts_pure _
    cases condition with
    | always => exact shifts_goto target
    | falsy => exact hpopped
    | truthy => exact hpopped
  | nop => exact shifts_pure _

/-- The stack never holds more values than it may. -/
theorem kept_depth_le (h : Host σ) (capacity : Nat) :
    Kept h capacity fun m m' => m.stack.depth ≤ capacity → m'.stack.depth ≤ capacity where
  refl m hle := hle
  trans h₁ h₂ hle := h₂ (h₁ hle)
  push v m hle := by
    rw [on_push_self]
    split
    · next hlt =>
      show m.stack.items.length + 1 ≤ capacity
      rw [← m.stack.depth_eq]
      exact hlt
    · exact hle
  pop m hle := by
    rw [on_pop_self]
    split
    · next v vs hitems =>
      rw [m.stack.depth_eq, hitems] at hle
      exact Nat.le_of_succ_le hle
    · exact hle
  replaceTop m v hle := (m.stack.depth_replaceTop v).symm ▸ hle
  writeRegister name v m hle := hle
  fetch name m hle := by
    rw [on_fetch]
    exact hle
  store name v m hle := by
    rw [on_store]
    exact hle

/-! ### Faults -/

theorem raises_popped_jump_iff {c : Condition} {target : Target} {e : Fault} :
    (do
      let v ← pop
      if c.holds v then goto target else pure .next : Exec σ Flow).Raises m e ↔
      (e = .stackUnderflow ∧ m.stack.items = []) ∨
        ∃ v vs, m.stack.items = v :: vs ∧ c.holds v = true ∧
          e = .unresolvedLabel target.label ∧ target.position = none := by
  rw [raises_pop_bind_iff]
  refine or_congr Iff.rfl (exists_congr fun v => exists_congr fun vs => and_congr_right fun _ => ?_)
  split
  · next hholds => simp [hholds, raises_goto_iff]
  · next hholds => simp [hholds]

/-- An instruction wants for values if it needs more than there are, and for no other reason. -/
theorem raises_underflow_iff :
    (instr h capacity i).Raises m .stackUnderflow ↔ m.stack.depth < i.demand := by
  cases i with
  | push src => simp [instr, raises_bind_iff, raises_read_iff, Instr.demand]
  | pop dst =>
    rw [Exec.instr, raises_pop_bind_iff]
    simp [raises_write_iff, Instr.demand, Stack.depth_eq_zero_iff]
  | move dst src => simp [instr, raises_bind_iff, raises_read_iff, raises_write_iff, Instr.demand]
  | compare lhs rhs => simp [instr, raises_bind_iff, raises_read_iff, Instr.demand]
  | arith op =>
    rw [Exec.instr, raises_pop_pop_bind_iff]
    simp [raises_bind_iff, Instr.demand]
  | negate => simp [raises_negate_iff, Instr.demand, Stack.depth_eq_zero_iff]
  | adjust delta register => simp [instr, raises_bind_iff, Instr.demand]
  | logic op =>
    rw [Exec.instr, raises_pop_pop_bind_iff]
    simp [Instr.demand]
  | jump condition target =>
    cases condition with
    | always => simp [instr, raises_goto_iff, Instr.demand]
    | falsy => simp [instr, raises_popped_jump_iff, Instr.demand, Stack.depth_eq_zero_iff]
    | truthy => simp [instr, raises_popped_jump_iff, Instr.demand, Stack.depth_eq_zero_iff]
  | nop => simp [instr, Instr.demand]

/-! Room is wanted only where a value is put on the stack; what goes before must have succeeded. -/

section Overflow

variable {c : Nat}

theorem raises_overflow_read_bind_iff {src : Operand} {f : Value → Exec σ α} :
    (read h src >>= f).Raises m (.stackOverflow c) ↔
      ∃ v m₁, (read h src).on m = (.ok v, m₁) ∧ (f v).Raises m₁ (.stackOverflow c) := by
  rw [raises_bind_iff]
  simp [raises_read_iff]

theorem raises_overflow_number_bind_iff {mnemonic : String} {v : Value} {f : Number → Exec σ α} :
    (number mnemonic v >>= f).Raises m (.stackOverflow c) ↔
      ∃ x, v = .number x ∧ (f x).Raises m (.stackOverflow c) := by
  rw [raises_bind_iff]
  simp [on_number_eq_ok_iff, and_assoc]

theorem raises_overflow_push_iff {v : Value} :
    (do push capacity v; pure .next : Exec σ Flow).Raises m (.stackOverflow c) ↔
      c = capacity ∧ capacity ≤ m.stack.depth := by
  simp

/-- An operation on two values leaves room for its result. -/
theorem not_raises_overflow_of_pop_pop {f : Value → Value → Exec σ α} (hle : m.stack.depth ≤ capacity)
    (hf : ∀ b a m', (f b a).Raises m' (.stackOverflow c) → capacity ≤ m'.stack.depth) :
    ¬(do
      let b ← pop
      let a ← pop
      f b a).Raises m (.stackOverflow c) := by
  intro hraises
  obtain ⟨⟨⟩, -⟩ | ⟨b, a, vs, hitems, hrest⟩ := raises_pop_pop_bind_iff.mp hraises
  have hfull : capacity ≤ vs.length := hf b a (m.withStack vs) hrest
  rw [m.stack.depth_eq, hitems, List.length_cons, List.length_cons] at hle
  omega

/-- Only an instruction that adds a value wants for room, and only once it has the value. -/
theorem raises_overflow_iff (hle : m.stack.depth ≤ capacity) :
    (instr h capacity i).Raises m (.stackOverflow c) ↔
      c = capacity ∧ i.pushes = true ∧ i.OperandsRead h m ∧ m.stack.depth = capacity := by
  cases i with
  | push src =>
    simp only [instr, raises_overflow_read_bind_iff, raises_overflow_push_iff]
    constructor
    · rintro ⟨v, m₁, hread, rfl, hfull⟩
      rw [stack_of_on_read hread] at hfull
      exact ⟨rfl, rfl, ⟨v, m₁, hread⟩, Nat.le_antisymm hle hfull⟩
    · rintro ⟨rfl, -, ⟨v, m₁, hread⟩, hfull⟩
      refine ⟨v, m₁, hread, rfl, ?_⟩
      rw [stack_of_on_read hread]
      exact Nat.le_of_eq hfull.symm
  | pop dst =>
    rw [Exec.instr, raises_pop_bind_iff]
    simp [raises_write_iff, Instr.pushes]
  | move dst src => simp [instr, raises_bind_iff, raises_read_iff, raises_write_iff, Instr.pushes]
  | compare lhs rhs =>
    simp only [instr, raises_overflow_read_bind_iff, raises_overflow_number_bind_iff,
      raises_overflow_push_iff]
    constructor
    · rintro ⟨_, m₁, hleft, x, rfl, _, m₂, hright, y, rfl, rfl, hfull⟩
      rw [stack_of_on_read hright, stack_of_on_read hleft] at hfull
      exact ⟨rfl, rfl, ⟨x, y, m₁, m₂, hleft, hright⟩, Nat.le_antisymm hle hfull⟩
    · rintro ⟨rfl, -, ⟨x, y, m₁, m₂, hleft, hright⟩, hfull⟩
      refine ⟨.number x, m₁, hleft, x, rfl, .number y, m₂, hright, y, rfl, rfl, ?_⟩
      rw [stack_of_on_read hright, stack_of_on_read hleft]
      exact Nat.le_of_eq hfull.symm
  | arith op =>
    have hno : ¬(instr h capacity (.arith op)).Raises m (.stackOverflow c) := by
      refine not_raises_overflow_of_pop_pop hle fun b a m' hraises => ?_
      simp only [raises_overflow_number_bind_iff, raises_overflow_push_iff] at hraises
      obtain ⟨_, -, _, -, -, hfull⟩ := hraises
      exact hfull
    simp [hno, Instr.pushes]
  | negate => simp [raises_negate_iff, Instr.pushes]
  | adjust delta register => simp [instr, raises_bind_iff, Instr.pushes]
  | logic op =>
    have hno : ¬(instr h capacity (.logic op)).Raises m (.stackOverflow c) :=
      not_raises_overflow_of_pop_pop hle fun b a m' hraises => (raises_overflow_push_iff.mp hraises).2
    simp [hno, Instr.pushes]
  | jump condition target =>
    cases condition with
    | always => simp [instr, raises_goto_iff, Instr.pushes]
    | falsy => simp [instr, raises_popped_jump_iff, Instr.pushes]
    | truthy => simp [instr, raises_popped_jump_iff, Instr.pushes]
  | nop => simp [instr, Instr.pushes]

end Overflow
end Exec

/-! ### Runs -/

namespace Run

open Exec

variable {p : Program} {limits : Limits} {r r' : Run σ} {n : Nat} {e : Fault}

/-- The instructions that a run executes in up to `fuel` steps, in order. -/
def executed (p : Program) (limits : Limits) (h : Host σ) : (fuel : Nat) → Run σ → List Instr
  | 0, _ => []
  | fuel + 1, r =>
    (r.next? p limits).toList ++
      match r.step p limits h with
      | .running r' => executed p limits h fuel r'
      | .ended _ => []

/-- The next step ends the run with the fault `e` of the instruction there. -/
def Faults (p : Program) (limits : Limits) (h : Host σ) (r : Run σ) (e : Fault) : Prop :=
  ∃ o, r.step p limits h = .ended o ∧ o.result = .error (.located r.index (p.line r.index) e)

theorem executed_succ (hstep : r.step p limits h = .running r') (hnext : r.next? p limits = some i) :
    r.executed p limits h (n + 1) = i :: r'.executed p limits h n := by
  rw [executed, hstep, hnext]
  rfl

theorem length_executed (hrun : r.advance p limits h n = .running r') :
    (r.executed p limits h n).length = n := by
  induction n generalizing r with
  | zero => rfl
  | succ n ih =>
    rw [advance] at hrun
    split at hrun
    · next r₁ hstep =>
      obtain ⟨i, _, _, hnext, -, -⟩ := step_eq_running_iff.mp hstep
      rw [executed_succ hstep hnext, List.length_cons, ih hrun]
    · cases hrun

/-- The depth counts the instructions executed. -/
theorem depth_of_advance_eq_running (hrun : r.advance p limits h n = .running r') :
    (r'.machine.stack.depth : Int) = r.machine.stack.depth +
      ((r.executed p limits h n).countP Instr.pushes - (r.executed p limits h n).countP Instr.pops) := by
  induction n generalizing r with
  | zero =>
    cases hrun
    simp [executed]
  | succ n ih =>
    rw [advance] at hrun
    split at hrun
    · next r₁ hstep =>
      obtain ⟨i, flow, m', hnext, hon, rfl⟩ := step_eq_running_iff.mp hstep
      have hfirst := shifts_instr i r.machine flow m' hon
      have hrest := ih hrun
      rw [executed_succ hstep hnext, List.countP_cons, List.countP_cons, hrest, hfirst, Instr.shift]
      cases i.pushes <;> cases i.pops <;> simp <;> omega
    · cases hrun

/-- What the instruction raises, the run reports with its place. -/
theorem faults_iff (hnext : r.next? p limits = some i) :
    r.Faults p limits h e ↔ (instr h limits.stackCapacity i).Raises r.machine e := by
  obtain ⟨-, hnone, -⟩ | ⟨_, _, _, _, _, hnone, -⟩ | ⟨j, -, hsome, hstep⟩ := step_cases p limits h r
  · rw [hnext] at hnone
    cases hnone
  · rw [hnext] at hnone
    cases hnone
  · rw [hnext] at hsome
    cases hsome
    unfold Faults Raises
    rw [hstep, execute_eq]
    rcases hon : (instr h limits.stackCapacity i).on r.machine with ⟨e' | flow, m'⟩
    · have hlocate := (raisesOnly_instr i r.machine e' ⟨m', hon⟩).locate_eq r.index (p.line r.index)
      simp [proceed, hlocate]
    · simp [proceed]

/-- The result is decided by how many values are left. -/
theorem result_of_depth (m : Machine σ) :
    (m.stack.depth = 0 → result m = .ok none) ∧
      (m.stack.depth = 1 → ∃ v, m.stack.items = [v] ∧ result m = .ok (some v)) ∧
      (2 ≤ m.stack.depth → result m = .error (.stackImbalance m.stack.depth)) := by
  unfold result
  rw [m.stack.depth_eq]
  rcases m.stack.items with _ | ⟨v, _ | ⟨w, vs⟩⟩ <;> simp

end Run

open Run

/-- Wherever a run has come to, the depth of the stack is the number of values that the instructions
executed have added less the number that they have taken off, and it is within the capacity. It decides
whether the next instruction finds too few values or, having one to add, no room, and at the end of the
program what the run ends with. -/
theorem depth_accounts_for_run (p : Program) (limits : Limits) (h : Host σ) (host : σ) {n : Nat} {r : Run σ}
    (hrun : (start host).advance p limits h n = .running r) :
    let ran := (start host).executed p limits h n
    let depth : Int := ran.countP Instr.pushes - ran.countP Instr.pops
    ran.length = r.steps ∧ r.machine.stack.depth = depth ∧ r.machine.stack.depth ≤ limits.stackCapacity ∧
      (∀ i, r.next? p limits = some i →
        (r.Faults p limits h .stackUnderflow ↔ depth < i.demand) ∧
        ∀ c, r.Faults p limits h (.stackOverflow c) ↔
          c = limits.stackCapacity ∧ i.pushes = true ∧ i.OperandsRead h r.machine ∧
            depth = limits.stackCapacity) ∧
      (p.code[r.index]? = none →
        ∃ o, r.step p limits h = .ended o ∧ o.steps = r.steps ∧
          (depth = 0 → o.result = .ok none) ∧
          (depth = 1 → ∃ v, r.machine.stack.items = [v] ∧ o.result = .ok (some v)) ∧
          (2 ≤ depth → o.result = .error (.stackImbalance depth.toNat))) := by
  intro ran depth
  have hdepth : (r.machine.stack.depth : Int) = depth :=
    (depth_of_advance_eq_running hrun).trans (Int.zero_add _)
  have hle : r.machine.stack.depth ≤ limits.stackCapacity := by
    have hkept := kept_advance (Exec.kept_depth_le h limits.stackCapacity) p n (start host)
    rw [hrun] at hkept
    exact hkept (Nat.zero_le _)
  refine ⟨?_, hdepth, hle, ?_, ?_⟩
  · rw [length_executed hrun, steps_of_advance_eq_running hrun]
    exact (Nat.zero_add n).symm
  · intro i hnext
    rw [← hdepth, faults_iff hnext, Exec.raises_underflow_iff, Int.ofNat_lt]
    refine ⟨Iff.rfl, fun c => ?_⟩
    rw [faults_iff hnext, Exec.raises_overflow_iff hle, Int.ofNat_inj]
  · intro hend
    obtain ⟨hzero, hone, hmore⟩ := result_of_depth r.machine
    refine ⟨_, step_of_end hend, rfl, ?_, ?_, ?_⟩
    · intro hd
      exact hzero (by omega)
    · intro hd
      exact hone (by omega)
    · intro hd
      rw [← hdepth, Int.toNat_natCast]
      exact hmore (by omega)

/-- On a stack with room for one value: the jump takes off what was pushed, the comparison fills the
stack again, and the next value, which the host supplies, finds no room. -/
theorem depth_accounts_for_run_full_stack :
    let p : Program :=
      ⟨#[.push (.immediate (.boolean false)), .jump .falsy ⟨"again", some 2⟩,
        .compare (.immediate (.number .one)) (.immediate (.number .one)), .push (.direct "x")], #[1, 2, 3, 4]⟩
    let host : Store := (∅ : Store).insert "x" .undefined
    ∃ r : Run Store, (start host).advance p ⟨1, none⟩ Host.store 3 = .running r ∧
      r.machine.stack.depth = 1 ∧ r.Faults p ⟨1, none⟩ Host.store (.stackOverflow 1) ∧
      ¬r.Faults p ⟨1, none⟩ Host.store .stackUnderflow := by
  intro p host
  have hrun : (start host).advance p ⟨1, none⟩ Host.store 3 =
      .running ⟨(Machine.initial host).withStack [.number (Number.one.sub .one)], 3, 3⟩ := rfl
  refine ⟨_, hrun, rfl, ?_⟩
  obtain ⟨-, -, -, hfaults, -⟩ := depth_accounts_for_run p ⟨1, none⟩ Host.store host hrun
  obtain ⟨hunder, hover⟩ := hfaults (.push (.direct "x")) rfl
  refine ⟨(hover 1).mpr ⟨rfl, rfl, ⟨.undefined, _, rfl⟩, rfl⟩, ?_⟩
  rw [hunder]
  decide

end StackScript
