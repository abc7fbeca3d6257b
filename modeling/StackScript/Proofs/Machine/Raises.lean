import StackScript.Proofs.Machine.Run

/-!
# What instructions raise

What an instruction can raise is known from the instruction itself: `Instr.CanRaise` says which faults fit
it, and an instruction raises no other (`raisesOnly_instr`), on whatever machine. In particular it never
gives a fault a place; the run does that, once. So it can be said how a run ends (`step_eq_ended_cases`):
at the end of the program, at the step limit, or with a fault of an instruction and the place of it.
-/

namespace StackScript

variable {σ α β : Type} {h : Host σ} {capacity : Nat} {m m' : Machine σ} {i : Instr}

namespace Instr

/-- The operands that the instruction reads, in order. -/
def reads : Instr → List Operand
  | .push src | .move _ src => [src]
  | .compare lhs rhs => [lhs, rhs]
  | .adjust _ register => [.register register]
  | _ => []

/-- The fault fits the instruction: it names the mnemonic, a register that is read, or the label of a
jump whose position is not known. -/
inductive CanRaise (capacity : Nat) (i : Instr) : Fault → Prop where
  | unsetRegister {name : String} (read : .register name ∈ i.reads) : CanRaise capacity i (.unsetRegister name)
  | typeMismatch {got : ValueType} (other : got ≠ .number) : CanRaise capacity i (.typeMismatch i.mnemonic got)
  | stackUnderflow : CanRaise capacity i .stackUnderflow
  | stackOverflow : CanRaise capacity i (.stackOverflow capacity)
  | unresolvedLabel {label : String} (jump : i.target? = some ⟨label, none⟩) :
      CanRaise capacity i (.unresolvedLabel label)
  | host (fault : HostFault) : CanRaise capacity i (.host fault)

/-- Such a fault has no place yet. -/
theorem CanRaise.locate_eq {e : Fault} (h : i.CanRaise capacity e) (index line : Nat) :
    e.locate index line = .located index line e := by
  cases h <;> rfl

end Instr

theorem Value.type_ne_number {v : Value} (h : v.number? = none) : v.type ≠ .number := by
  cases v <;> simp_all [number?, type]

namespace Exec

variable {x : Exec σ α} {f : α → Exec σ β} {E : Fault → Prop}

/-! ### Negation -/

/-- Negation works on the topmost value in its place. -/
theorem on_instr_negate_self :
    (instr h capacity .negate).on m =
      match m.stack.items with
      | [] => (.error .stackUnderflow, m)
      | v :: vs =>
        match v.number? with
        | some x => (.ok .next, m.withStack (.number x.neg :: vs))
        | none => (.error (.typeMismatch "neg" v.type), m) := by
  have hm := m.withStack_items
  cases hitems : m.stack.items with
  | nil =>
    rw [hitems] at hm
    rw [← hm]
    rfl
  | cons v vs =>
    rw [hitems] at hm
    have hon := @on_instr_negate σ h capacity m vs v
    rw [hm] at hon
    exact hon

theorem raises_negate_iff {e : Fault} :
    (instr h capacity .negate).Raises m e ↔
      (e = .stackUnderflow ∧ m.stack.items = []) ∨
        ∃ v vs, m.stack.items = v :: vs ∧ v.number? = none ∧ e = .typeMismatch "neg" v.type := by
  unfold Raises
  rw [on_instr_negate_self]
  split
  · next hitems => simp [hitems, eq_comm]
  · next v vs hitems =>
    split
    · next x hx => simp [hitems, hx]
    · next hnone => simp [hitems, hnone, eq_comm]

/-! ### The faults of sequences and of instructions -/

/-- Every fault of the action satisfies `E`. -/
def RaisesOnly (x : Exec σ α) (E : Fault → Prop) : Prop := ∀ m e, x.Raises m e → E e

theorem RaisesOnly.bind (hx : x.RaisesOnly E) (hf : ∀ a, (f a).RaisesOnly E) : (x >>= f).RaisesOnly E := by
  intro m e hraises
  rcases raises_bind_iff.mp hraises with hfirst | ⟨a, m₁, -, hrest⟩
  · exact hx m e hfirst
  · exact hf a m₁ e hrest

theorem raisesOnly_pure (a : α) : (pure a : Exec σ α).RaisesOnly E := by
  intro m e hraises
  exact absurd hraises not_raises_pure

theorem raisesOnly_push (v : Value) : (push capacity v : Exec σ Unit).RaisesOnly (i.CanRaise capacity) := by
  intro m e hraises
  obtain ⟨rfl, -⟩ := raises_push_iff.mp hraises
  exact .stackOverflow

theorem raisesOnly_pop : (pop : Exec σ Value).RaisesOnly (i.CanRaise capacity) := by
  intro m e hraises
  obtain ⟨rfl, -⟩ := raises_pop_iff.mp hraises
  exact .stackUnderflow

theorem raisesOnly_number {name : String} (hname : name = i.mnemonic) (v : Value) :
    (number name v : Exec σ Number).RaisesOnly (i.CanRaise capacity) := by
  intro m e hraises
  subst hname
  obtain ⟨rfl, hnone⟩ := raises_number_iff.mp hraises
  exact .typeMismatch (Value.type_ne_number hnone)

theorem raisesOnly_read {src : Operand} (hsrc : src ∈ i.reads) :
    (read h src).RaisesOnly (i.CanRaise capacity) := by
  intro m e hraises
  rcases raises_read_iff.mp hraises with ⟨name, rfl, rfl, -⟩ | ⟨name, fault, -, rfl, -⟩
  · exact .unsetRegister hsrc
  · exact .host fault

theorem raisesOnly_write (v : Value) (dst : Place) : (write h v dst).RaisesOnly (i.CanRaise capacity) := by
  intro m e hraises
  obtain ⟨name, fault, -, rfl, -⟩ := raises_write_iff.mp hraises
  exact .host fault

theorem raisesOnly_goto {target : Target} (htarget : i.target? = some target) :
    (goto target : Exec σ Flow).RaisesOnly (i.CanRaise capacity) := by
  intro m e hraises
  obtain ⟨rfl, hnone⟩ := raises_goto_iff.mp hraises
  apply Instr.CanRaise.unresolvedLabel
  rw [htarget, ← hnone]

/-- The faults of an instruction fit it. -/
theorem raisesOnly_instr (i : Instr) : (instr h capacity i).RaisesOnly (i.CanRaise capacity) := by
  cases i with
  | push src =>
    exact (raisesOnly_read (by simp [Instr.reads])).bind fun v =>
      (raisesOnly_push v).bind fun _ => raisesOnly_pure _
  | pop dst => exact raisesOnly_pop.bind fun v => (raisesOnly_write v dst).bind fun _ => raisesOnly_pure _
  | move dst src =>
    exact (raisesOnly_read (by simp [Instr.reads])).bind fun v =>
      (raisesOnly_write v dst).bind fun _ => raisesOnly_pure _
  | compare lhs rhs =>
    have hnumber : ∀ v, (number "cmp" v : Exec σ Number).RaisesOnly ((Instr.compare lhs rhs).CanRaise capacity) :=
      raisesOnly_number rfl
    exact (raisesOnly_read (by simp [Instr.reads])).bind fun a => (hnumber a).bind fun x =>
      (raisesOnly_read (by simp [Instr.reads])).bind fun b => (hnumber b).bind fun y =>
        (raisesOnly_push _).bind fun _ => raisesOnly_pure _
  | arith op =>
    have hnumber : ∀ v, (number op.faultName v : Exec σ Number).RaisesOnly ((Instr.arith op).CanRaise capacity) :=
      raisesOnly_number op.faultName_eq
    exact raisesOnly_pop.bind fun b => raisesOnly_pop.bind fun a => (hnumber b).bind fun y =>
      (hnumber a).bind fun x => (raisesOnly_push _).bind fun _ => raisesOnly_pure _
  | negate =>
    intro m e hraises
    rcases raises_negate_iff.mp hraises with ⟨rfl, -⟩ | ⟨v, vs, -, hnone, rfl⟩
    · exact .stackUnderflow
    · exact .typeMismatch (i := .negate) (Value.type_ne_number hnone)
  | adjust delta register =>
    have hread : (read h (.register register)).RaisesOnly ((Instr.adjust delta register).CanRaise capacity) :=
      raisesOnly_read (by simp [Instr.reads])
    have hnumber : ∀ v, (number delta.faultName v : Exec σ Number).RaisesOnly
        ((Instr.adjust delta register).CanRaise capacity) := raisesOnly_number delta.faultName_eq
    exact hread.bind fun v => (hnumber v).bind fun x =>
      (raisesOnly_write (h := h) _ (.register register)).bind fun _ => raisesOnly_pure _
  | logic op =>
    exact raisesOnly_pop.bind fun b => raisesOnly_pop.bind fun a =>
      (raisesOnly_push _).bind fun _ => raisesOnly_pure _
  | jump condition target =>
    have hpopped : (do
        let v ← Exec.pop
        if condition.holds v then Exec.goto target else Pure.pure .next : Exec σ Flow).RaisesOnly
          ((Instr.jump condition target).CanRaise capacity) := by
      apply raisesOnly_pop.bind
      intro v
      split
      · exact raisesOnly_goto rfl
      · exact raisesOnly_pure _
    cases condition with
    | always => exact raisesOnly_goto rfl
    | falsy => exact hpopped
    | truthy => exact hpopped
  | nop => exact raisesOnly_pure _

end Exec

/-! ### How a run ends -/

namespace Run

open Exec

variable {p : Program} {limits : Limits} {r : Run σ} {o : Outcome σ} {e : Fault}

/-- The end of the program is a fault if more than one value is left. -/
theorem result_eq_error_iff : result m = .error e ↔ e = .stackImbalance m.stack.depth ∧ 2 ≤ m.stack.depth := by
  unfold result
  rw [m.stack.depth_eq]
  rcases m.stack.items with _ | ⟨v, _ | ⟨w, vs⟩⟩ <;> simp [eq_comm]

/-- A run ends at the end of the program, at the step limit, or by a fault of the next instruction, which
it reports with its place. -/
theorem step_eq_ended_cases (hlast : r.step p limits h = .ended o) :
    (p.code[r.index]? = none ∧ o = ⟨result r.machine, r.steps, r.machine⟩) ∨
      (∃ k, limits.maxSteps = some k ∧ k ≤ r.steps ∧
        o = ⟨.error (.stepLimitExceeded k), r.steps, r.machine⟩) ∨
      ∃ i source m', r.next? p limits = some i ∧
        (instr h limits.stackCapacity i).on r.machine = (.error source, m') ∧
        i.CanRaise limits.stackCapacity source ∧
        o = ⟨.error (.located r.index (p.line r.index) source), r.steps + 1, m'⟩ := by
  obtain ⟨hend, -, hstep⟩ | ⟨i, k, -, hmax, hle, -, hstep⟩ | ⟨i, -, hnext, hstep⟩ := step_cases p limits h r
  · rw [hlast] at hstep
    exact .inl ⟨hend, Progress.ended.inj hstep⟩
  · rw [hlast] at hstep
    exact .inr (.inl ⟨k, hmax, hle, Progress.ended.inj hstep⟩)
  · rw [hlast, execute_eq] at hstep
    rcases hon : (instr h limits.stackCapacity i).on r.machine with ⟨source | flow, m'⟩
    · have hcan := raisesOnly_instr i r.machine source ⟨m', hon⟩
      rw [hon, proceed, hcan.locate_eq] at hstep
      exact .inr (.inr ⟨i, source, m', hnext, hon, hcan, Progress.ended.inj hstep⟩)
    · rw [hon] at hstep
      cases hstep

end Run
end StackScript
