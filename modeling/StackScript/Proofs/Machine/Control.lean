import StackScript.Proofs.Assembly.Labels
import StackScript.Proofs.Machine.Raises

/-!
# Where control goes

The machine does not check where a jump goes; it is the second pass of the assembler that gives every jump
a position within the program (`Program.Linked`, `linked_of_compile`). An instruction leads to the next one
or to the position of its target (`leadsTo_instr`), so in a linked program the index of the next instruction
is at most the size of the program. Main statement (`control_within_program`): this holds along every run of a
compiled program, over any instruction set, and no such run fails for want of a position.
-/

namespace StackScript

variable {σ α β : Type} {h : Host σ} {capacity : Nat} {m m' : Machine σ} {i : Instr}

/-! ### Where an instruction leads -/

/-- Control can go this way after the instruction. -/
def Instr.LeadsTo (i : Instr) : Flow → Prop
  | .next => True
  | .jump k => ∃ label, i.target? = some ⟨label, some k⟩

namespace Exec

variable {x : Exec σ α} {f : α → Exec σ β} {P : β → Prop}

/-- Where the action succeeds, its outcome satisfies `P`. -/
def Yields (x : Exec σ α) (P : α → Prop) : Prop := ∀ m a m', x.on m = (.ok a, m') → P a

theorem yields_pure {b : β} (hb : P b) : (pure b : Exec σ β).Yields P := by
  intro m b' m' hon
  cases hon
  exact hb

/-- The outcome of a sequence is that of its last step. -/
theorem Yields.bind (x : Exec σ α) (hf : ∀ a, (f a).Yields P) : (x >>= f).Yields P := by
  intro m b m' hon
  obtain ⟨a, m₁, -, hrest⟩ := on_bind_eq_ok_iff.mp hon
  exact hf a m₁ b m' hrest

theorem yields_goto {target : Target} (htarget : i.target? = some target) :
    (goto target : Exec σ Flow).Yields i.LeadsTo := by
  intro m flow m' hon
  unfold goto at hon
  split at hon
  · next k hk =>
    cases hon
    exact ⟨target.label, by rw [htarget, ← hk]⟩
  · cases hon

/-- An instruction leads to the next one or to the position of its target. -/
theorem leadsTo_instr (i : Instr) : (instr h capacity i).Yields i.LeadsTo := by
  have hnext : ∀ i : Instr, (pure .next : Exec σ Flow).Yields i.LeadsTo := fun i => yields_pure trivial
  cases i with
  | push src => exact .bind _ fun v => .bind _ fun _ => hnext _
  | pop dst => exact .bind _ fun v => .bind _ fun _ => hnext _
  | move dst src => exact .bind _ fun v => .bind _ fun _ => hnext _
  | compare lhs rhs =>
    exact .bind _ fun a => .bind _ fun x => .bind _ fun b => .bind _ fun y => .bind _ fun _ => hnext _
  | arith op =>
    exact .bind _ fun b => .bind _ fun a => .bind _ fun y => .bind _ fun x => .bind _ fun _ => hnext _
  | negate =>
    intro m flow m' hon
    rw [on_instr_negate_self] at hon
    split at hon
    · cases hon
    · split at hon
      · cases hon
        trivial
      · cases hon
  | adjust delta register => exact .bind _ fun v => .bind _ fun x => .bind _ fun _ => hnext _
  | logic op => exact .bind _ fun b => .bind _ fun a => .bind _ fun _ => hnext _
  | jump condition target =>
    have hpopped : (do
        let v ← Exec.pop
        if condition.holds v then Exec.goto target else pure .next : Exec σ Flow).Yields
          (Instr.jump condition target).LeadsTo := by
      apply Yields.bind
      intro v
      split
      · exact yields_goto rfl
      · exact hnext _
    cases condition with
    | always => exact yields_goto rfl
    | falsy => exact hpopped
    | truthy => exact hpopped
  | nop => exact hnext _

end Exec

/-! ### Linked programs -/

/-- Every jump of the program has a position, at most one past the last instruction. -/
def Program.Linked (p : Program) : Prop := ∀ k t, p.target? k = some t → ∃ q ≤ p.size, t.position = some q

theorem Program.linked_of_compile {set : InstrSet} {script : String} {p : Program}
    (hcompile : Program.compile set script = .ok p) : p.Linked := by
  intro k t ht
  obtain ⟨l, -, -, q, hposition, hbegins⟩ := beginsAt_of_target? hcompile ht
  exact ⟨q, hbegins.le_size, hposition⟩

namespace Program.Linked

variable {p : Program} (hp : p.Linked) {k : Nat}

include hp

theorem not_unresolved (hi : p.code[k]? = some i) {label : String} : i.target? ≠ some ⟨label, none⟩ := by
  intro ht
  obtain ⟨q, -, hq⟩ := hp k ⟨label, none⟩ (by rw [target?, hi]; exact ht)
  cases hq

theorem after_le_size (hi : p.code[k]? = some i) {flow : Flow} (hflow : i.LeadsTo flow) :
    flow.after k ≤ p.size := by
  cases flow with
  | next => exact (Array.getElem?_eq_some_iff.mp hi).1
  | jump q =>
    obtain ⟨label, ht⟩ := hflow
    obtain ⟨q', hle, hq'⟩ := hp k ⟨label, some q⟩ (by rw [target?, hi]; exact ht)
    cases hq'
    exact hle

end Program.Linked

/-! ### Runs of linked programs -/

namespace Run

variable {p : Program} {limits : Limits} {r r' : Run σ} {n : Nat}

theorem index_le_size_of_step (hp : p.Linked) (hstep : r.step p limits h = .running r') : r'.index ≤ p.size := by
  obtain ⟨i, flow, m', hnext, hon, rfl⟩ := step_eq_running_iff.mp hstep
  exact hp.after_le_size (code_of_next? hnext) (Exec.leadsTo_instr i r.machine flow m' hon)

/-- Control stays within a linked program. -/
theorem index_le_size_of_advance (hp : p.Linked) (hr : r.index ≤ p.size)
    (hrun : r.advance p limits h n = .running r') : r'.index ≤ p.size :=
  invariant_of_advance (I := fun r => r.index ≤ p.size) (fun _ _ _ hstep => index_le_size_of_step hp hstep) hr hrun

end Run

open Run

/-- Along every run of a compiled program the index of the next instruction is in the program or at its
end, and no run fails for want of the position of a label: whatever instruction set it was compiled over,
whatever the host and the limits. -/
theorem control_within_program (set : InstrSet) {script : String} {p : Program}
    (hcompile : Program.compile set script = .ok p) (limits : Limits) (h : Host σ) (host : σ) :
    (∀ n r, (start host).advance p limits h n = .running r → r.index ≤ p.size) ∧
      ∀ fuel o e label, p.run? limits h host fuel = some o → o.result = .error e →
        e.root ≠ .unresolvedLabel label := by
  have hlinked := Program.linked_of_compile hcompile
  constructor
  · intro n r hrun
    exact index_le_size_of_advance hlinked (Nat.zero_le _) hrun
  · intro fuel o e label hrun herror hroot
    obtain ⟨n, r, -, hlast⟩ := exists_last_step (run?_eq_some_iff.mp hrun)
    obtain ⟨-, rfl⟩ | ⟨k, -, -, rfl⟩ | ⟨i, source, m', hnext, -, hcan, rfl⟩ := step_eq_ended_cases hlast
    · obtain ⟨rfl, -⟩ := result_eq_error_iff.mp herror
      cases hroot
    · cases herror
      cases hroot
    · cases herror
      cases hcan with
      | unresolvedLabel hjump => exact hlinked.not_unresolved (code_of_next? hnext) hjump
      | _ => cases hroot

/-- A set in which a jump has another name and takes its label as a variable is written. The program goes
back to its start and past its end; the value that decides comes from the host. -/
theorem control_within_program_renamed :
    let set : InstrSet := .ofList
      [⟨"hop", .dir1, .jump .always⟩, ⟨"unless", .labelled, .jump .falsy⟩, ⟨"push", .dir1, .push⟩]
    ∃ p, Program.compile set "again: push x\nunless done\nhop again\ndone:" = .ok p ∧
      p.code.toList.filterMap (·.target?) = [⟨"done", some 3⟩, ⟨"again", some 0⟩] ∧
      ∀ (host : Store) n r, (start host).advance p {} Host.store n = .running r → r.index ≤ 3 := by
  intro set
  have hcompile : Program.compile set "again: push x\nunless done\nhop again\ndone:" =
      .ok ⟨#[.push (.direct "x"), .jump .falsy ⟨"done", some 3⟩, .jump .always ⟨"again", some 0⟩], #[1, 2, 3]⟩ :=
    Fallible.toOption_eq_some_iff.mp (by decide +kernel)
  exact ⟨_, hcompile, rfl, fun host => (control_within_program set hcompile {} Host.store host).1⟩

end StackScript
