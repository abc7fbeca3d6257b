import StackScript.Proofs.Machine.Run

/-!
# Larger stacks

Instructions look at the capacity of the stack only in a push, and a push into a larger stack differs
from one into a smaller stack only if the smaller one is full. So an instruction on a larger stack does
the same, unless it overflows the smaller one (`instr_agrees`), and so does a whole run
(`advance_agrees`). Main statement (`larger_stack_same_run`): a run that does not overflow its stack is
the same on a larger one, and one that does is the beginning of the run on the larger one.
-/

namespace StackScript

variable {σ α β : Type} {h : Host σ} {c c' : Nat} {limit : Option Nat}

/-! ### Instructions -/

namespace Exec

/-- The first action does what the second does, unless it overflows a stack of capacity `c`; it has
then made no request that the second does not make. -/
def AgreesUpTo (c : Nat) (x y : Exec σ α) : Prop :=
  ∀ m, x.on m = y.on m ∨ ∃ m', x.on m = (.error (.stackOverflow c), m') ∧ m'.log <+: (y.on m).2.log

theorem AgreesUpTo.refl (x : Exec σ α) : AgreesUpTo c x x := fun _ => .inl rfl

theorem AgreesUpTo.bind (x : Exec σ α) {f g : α → Exec σ β} (hfg : ∀ a, AgreesUpTo c (f a) (g a)) :
    AgreesUpTo c (x >>= f) (x >>= g) := by
  intro m
  rw [on_bind, on_bind]
  rcases x.on m with ⟨e | a, m₁⟩
  · exact .inl rfl
  · exact hfg a m₁

/-- A push is the last that an instruction does, so a larger stack shows only in how this one ends. -/
theorem AgreesUpTo.push (hle : c ≤ c') (v : Value) (flow : Flow) :
    AgreesUpTo c (do Exec.push c v; return flow : Exec σ Flow) (do Exec.push c' v; return flow) := by
  intro m
  rw [on_bind, on_bind, on_push_self, on_push_self]
  by_cases hlt : m.stack.depth < c
  · rw [if_pos hlt, if_pos (Nat.lt_of_lt_of_le hlt hle)]
    exact .inl rfl
  · refine .inr ⟨m, by rw [if_neg hlt], ?_⟩
    -- Whether the second push succeeds or not, it makes no request.
    by_cases hlt' : m.stack.depth < c'
    · simp only [if_pos hlt', on_pure]
      exact List.prefix_refl m.log
    · exact if_neg hlt' ▸ List.prefix_refl m.log

theorem instr_agrees (h : Host σ) (hle : c ≤ c') (i : Instr) :
    AgreesUpTo c (instr h c i) (instr h c' i) := by
  cases i with
  | push src => exact .bind _ fun v => .push hle v .next
  | compare lhs rhs =>
    exact .bind _ fun a => .bind _ fun x => .bind _ fun b => .bind _ fun y => .push hle _ .next
  | arith op =>
    exact .bind _ fun b => .bind _ fun a => .bind _ fun y => .bind _ fun x => .push hle _ .next
  | logic op => exact .bind _ fun b => .bind _ fun a => .push hle _ .next
  | jump condition target => cases condition <;> exact .refl _
  | _ => exact .refl _

end Exec

/-! ### Runs -/

/-- The first run does what the second does, unless it overflows a stack of capacity `c`; the second
has then made all its requests and has come at least as far. -/
def Progress.AgreesUpTo (c : Nat) (x y : Progress σ) : Prop :=
  x = y ∨ ∃ o e, x = .ended o ∧ o.result = .error e ∧ e.root = .stackOverflow c ∧
    o.machine.log <+: y.machine.log ∧ o.steps ≤ y.steps

namespace Progress.AgreesUpTo

variable {x y : Progress σ}

theorem eq (hagree : AgreesUpTo c x y)
    (hroot : ∀ o e, x = .ended o → o.result = .error e → e.root ≠ .stackOverflow c) : x = y := by
  rcases hagree with heq | ⟨o, e, hx, hresult, hover, -⟩
  · exact heq
  · exact absurd hover (hroot o e hx hresult)

theorem reached {o : Outcome σ} (hagree : AgreesUpTo c (.ended o) y) :
    o.machine.log <+: y.machine.log ∧ o.steps ≤ y.steps := by
  rcases hagree with rfl | ⟨_, _, ⟨⟩, -, -, hreached⟩
  · exact ⟨List.prefix_refl _, Nat.le_refl _⟩
  · exact hreached

end Progress.AgreesUpTo

namespace Run

variable {p : Program}

theorem execute_agrees (hle : c ≤ c') (i : Instr) (r : Run σ) :
    Progress.AgreesUpTo c (r.execute p ⟨c, limit⟩ h i) (r.execute p ⟨c', limit⟩ h i) := by
  rw [execute_eq, execute_eq]
  rcases Exec.instr_agrees h hle i r.machine with heq | ⟨m', hover, hlog⟩
  · exact .inl (congrArg (r.proceed p) heq)
  · right
    rw [hover, machine_proceed, steps_proceed]
    exact ⟨_, _, rfl, rfl, Fault.root_locate _ r.index (p.line r.index), hlog, Nat.le_refl _⟩

/-- The end of the program and the step limit are found whatever the capacity. -/
theorem step_agrees (hle : c ≤ c') (r : Run σ) :
    Progress.AgreesUpTo c (r.step p ⟨c, limit⟩ h) (r.step p ⟨c', limit⟩ h) := by
  unfold step
  cases p.code[r.index]? with
  | none => exact .inl rfl
  | some i =>
    cases limit with
    | none => exact execute_agrees hle i r
    | some k =>
      simp only
      by_cases hk : k ≤ r.steps
      · left
        rw [if_pos hk, if_pos hk]
      · rw [if_neg hk, if_neg hk]
        exact execute_agrees hle i r

theorem advance_agrees (hle : c ≤ c') (n : Nat) (r : Run σ) :
    Progress.AgreesUpTo c (r.advance p ⟨c, limit⟩ h n) (r.advance p ⟨c', limit⟩ h n) := by
  induction n generalizing r with
  | zero => exact .inl rfl
  | succ n ih =>
    rw [advance, advance]
    rcases step_agrees hle r with heq | ⟨o, e, hover, hresult, hroot, hlog, hsteps⟩
    · rw [heq]
      cases r.step p ⟨c', limit⟩ h with
      | running r' => exact ih r'
      | ended o => exact .inl rfl
    · right
      rw [hover]
      refine ⟨o, e, rfl, hresult, hroot, ?_⟩
      -- The smaller stack is full here; on the larger one the run may go on, which only adds to it.
      cases hstep : r.step p ⟨c', limit⟩ h with
      | ended o' =>
        rw [hstep] at hlog hsteps
        exact ⟨hlog, hsteps⟩
      | running r' =>
        rw [hstep] at hlog hsteps
        exact ⟨hlog.trans (kept_advance (Exec.kept_log h _) p n r'),
          Nat.le_trans hsteps (steps_advance p _ h n r').1⟩

end Run

open Run

/-- A run that does not overflow the smaller of two stacks is the same on the larger one, whether it ends or not. One
that does is a beginning of the run on the larger stack: that one has made the same requests first, and executed at
least as many instructions. This is so wherever the larger stack can be had; where it cannot, nothing is run on it. -/
theorem larger_stack_same_run (p : Program) (h : Host σ) (host : σ) (limit : Option Nat) {c c' : Nat}
    (hle : c ≤ c') (fuel : Nat) :
    (¬Stack.Fits c' → ∀ fuel', p.launch? ⟨c', limit⟩ h host fuel' = none) ∧
      (Stack.Fits c' →
        (∀ o, p.launch? ⟨c, limit⟩ h host fuel = some (.ended o) →
          (∀ e, o.result = .error e → e.root ≠ .stackOverflow c) →
          p.launch? ⟨c', limit⟩ h host fuel = some (.ended o)) ∧
        (∀ r, p.launch? ⟨c, limit⟩ h host fuel = some (.running r) →
          p.launch? ⟨c', limit⟩ h host fuel = some (.running r)) ∧
        ∀ o e, p.launch? ⟨c, limit⟩ h host fuel = some (.ended o) → o.result = .error e →
          e.root = .stackOverflow c →
          (∀ fuel' o', p.launch? ⟨c', limit⟩ h host fuel' = some (.ended o') →
            o.machine.log <+: o'.machine.log ∧ o.steps ≤ o'.steps) ∧
          ∀ fuel' ≥ fuel, ∃ x, p.launch? ⟨c', limit⟩ h host fuel' = some x ∧
            o.machine.log <+: x.machine.log ∧ o.steps ≤ x.steps) := by
  refine ⟨fun hnot fuel' => by rw [launch?_eq, if_neg hnot], fun hfits => ?_⟩
  have hagree : Progress.AgreesUpTo c ((start host).advance p ⟨c, limit⟩ h fuel)
      ((start host).advance p ⟨c', limit⟩ h fuel) := advance_agrees hle fuel (start host)
  have hlaunch : ∀ fuel, p.launch? ⟨c', limit⟩ h host fuel = some ((start host).advance p ⟨c', limit⟩ h fuel) :=
    fun fuel => launch?_eq_some_iff.mpr ⟨hfits, rfl⟩
  refine ⟨?_, ?_, ?_⟩
  · intro o hend hnot
    rw [(launch?_eq_some_iff.mp hend).2] at hagree
    rw [hlaunch, hagree.eq fun o' e heq hresult => ?_]
    cases heq
    exact hnot e hresult
  · intro r hrun
    rw [(launch?_eq_some_iff.mp hrun).2] at hagree
    rw [hlaunch, hagree.eq fun o e heq => nomatch heq]
  · intro o e hend hresult hroot
    rw [(launch?_eq_some_iff.mp hend).2] at hagree
    obtain ⟨hlog, hsteps⟩ := hagree.reached
    have hlater : ∀ fuel' ≥ fuel, o.machine.log <+: ((start host).advance p ⟨c', limit⟩ h fuel').machine.log ∧
        o.steps ≤ ((start host).advance p ⟨c', limit⟩ h fuel').steps := by
      intro fuel' hfuel
      exact ⟨hlog.trans (log_prefix_log_advance p ⟨c', limit⟩ h hfuel (start host)),
        Nat.le_trans hsteps (steps_advance_le p ⟨c', limit⟩ h hfuel (start host))⟩
    refine ⟨fun fuel' o' hend' => ?_, fun fuel' hfuel => ⟨_, hlaunch fuel', hlater fuel' hfuel⟩⟩
    -- The outcome on the larger stack is still there after as many steps as the smaller one took.
    have hmax := hlater (max fuel fuel') (Nat.le_max_left fuel fuel')
    rw [advance_eq_ended_of_le (Nat.le_max_right fuel fuel') (launch?_eq_some_iff.mp hend').2] at hmax
    exact hmax

/-- With room for one value `true and "x"` overflows the stack at its second instruction. With room
for two it ends, and a third place changes nothing, nor does the largest stack that there can be. With one place
more there is no stack and no run. -/
theorem larger_stack_same_run_two_values :
    let p : Program := ⟨#[.push (.immediate (.boolean true)), .push (.immediate (.string "x")), .logic .and], #[]⟩
    ∃ o, p.launch? ⟨2, none⟩ Host.store ∅ 4 = some (.ended o) ∧ o.result = .ok (some (.string "x")) ∧
      p.launch? ⟨3, none⟩ Host.store ∅ 4 = some (.ended o) ∧
      p.launch? ⟨384307168202282325, none⟩ Host.store ∅ 4 = some (.ended o) ∧
      p.launch? ⟨384307168202282326, none⟩ Host.store ∅ 4 = none ∧
      ∃ o₁, p.launch? ⟨1, none⟩ Host.store ∅ 4 = some (.ended o₁) ∧ o₁.steps = 2 ∧
        ∀ fuel' o', p.launch? ⟨2, none⟩ Host.store ∅ fuel' = some (.ended o') → 2 ≤ o'.steps := by
  intro p
  have htwo : p.launch? ⟨2, none⟩ Host.store ∅ 4 =
      some (.ended ⟨.ok (some (.string "x")), 3, (Machine.initial ∅).withStack [.string "x"]⟩) := rfl
  have hone : p.launch? ⟨1, none⟩ Host.store ∅ 4 =
      some (.ended ⟨.error (.located 1 0 (.stackOverflow 1)), 2, (Machine.initial ∅).withStack [.boolean true]⟩) := rfl
  have hlarger : ∀ c', 2 ≤ c' → Stack.Fits c' → p.launch? ⟨c', none⟩ Host.store ∅ 4 = _ := fun c' hle hfits =>
    ((larger_stack_same_run p Host.store ∅ none hle 4).2 hfits).1 _ htwo fun e he => nomatch he
  refine ⟨_, htwo, rfl, hlarger 3 (by decide) (by decide), hlarger _ (by decide) (by decide),
    (larger_stack_same_run p Host.store ∅ none (by decide : 2 ≤ _) 4).1 (by decide) 4, _, hone, rfl, ?_⟩
  intro fuel' o' hrun
  have hsmall := ((larger_stack_same_run p Host.store ∅ none (by decide : 1 ≤ 2) 4).2 (by decide)).2.2 _ _ hone rfl rfl
  exact (hsmall.1 fuel' o' hrun).2

end StackScript
