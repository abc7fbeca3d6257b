import StackScript.Proofs.Machine.Variables

/-!
# Registers

A run begins without registers. An instruction stores to one register at most (`Instr.register?`), and only if it
succeeds; all others it leaves alone (`get?_registers_of_on_instr`). So what a register holds is known from the
instructions executed: nothing, if none of them has stored to it, and else what was stored last (`Held`). As `inc` and
`dec` need a value to begin with, it is a `pop` or a `mov` that comes first.

An instruction may read several operands, and a later one only if it gets that far (`Instr.ReadsOn`). Main statement
(`register_reads_last_write`): such a read finds what was stored last, and it fails exactly if there is nothing.
-/

namespace StackScript

variable {σ α β : Type} {h : Host σ} {capacity : Nat} {m m' m₁ : Machine σ} {i : Instr} {name : String}

/-! ### What an instruction stores -/

namespace Instr

/-- The register that the instruction stores to. -/
def register? : Instr → Option String
  | .pop (.register name) | .move (.register name) _ | .adjust _ name => some name
  | _ => none

/-- The value that the instruction stores in its register: the one that it brings there, or the number that it finds
there with one added or taken off. -/
def stored? (h : Host σ) (m : Machine σ) (i : Instr) : Option Value :=
  match i with
  | .adjust delta name =>
    ((m.registers.get? name).bind Value.number?).map fun x => .number (x.add delta.step)
  | i => i.carried? h m

/-- Only an instruction with a destination can store to a register that is not set. -/
theorem destination?_of_unset {v : Value} (hregister : i.register? = some name) (hstored : i.stored? h m = some v)
    (hunset : m.registers.get? name = none) : i.destination? = some (.register name) := by
  cases i with
  | pop dst =>
    cases dst <;> cases hregister
    rfl
  | move dst src =>
    cases dst <;> cases hregister
    rfl
  | adjust delta register =>
    cases hregister
    rw [stored?, hunset] at hstored
    cases hstored
  | _ => cases hregister

theorem register?_of_destination? (hdst : i.destination? = some (.register name)) : i.register? = some name := by
  cases i with
  | pop dst =>
    cases hdst
    rfl
  | move dst src =>
    cases hdst
    rfl
  | _ => cases hdst

end Instr

namespace Exec

/-! ### Actions that leave the registers alone -/

/-- Whatever its outcome, the action leaves the registers as they are. -/
def Spares (x : Exec σ α) : Prop := ∀ m, (x.on m).2.registers = m.registers

theorem Spares.of_on_eq {x : Exec σ α} {a : Except Fault α} (hx : x.Spares) (hon : x.on m = (a, m')) :
    m'.registers = m.registers := by
  have hregisters := hx m
  rw [hon] at hregisters
  exact hregisters

theorem Spares.bind {x : Exec σ α} {f : α → Exec σ β} (hx : x.Spares) (hf : ∀ a, (f a).Spares) :
    (x >>= f).Spares := by
  intro m
  rw [on_bind]
  rcases hon : x.on m with ⟨e | a, m₁⟩
  · exact hx.of_on_eq hon
  · exact (hf a m₁).trans (hx.of_on_eq hon)

theorem spares_pure (a : α) : (pure a : Exec σ α).Spares := fun _ => rfl

theorem spares_push (v : Value) : (push capacity v : Exec σ Unit).Spares := by
  intro m
  rw [on_push_self]
  split <;> rfl

theorem spares_pop : (pop : Exec σ Value).Spares := by
  intro m
  rw [on_pop_self]
  split <;> rfl

theorem spares_number (mnemonic : String) (v : Value) : (number mnemonic v : Exec σ Number).Spares := by
  intro m
  rw [on_number]
  split <;> rfl

theorem spares_goto (target : Target) : (goto target : Exec σ Flow).Spares := by
  intro m
  unfold goto
  split <;> rfl

theorem spares_read (src : Operand) : (read h src).Spares := fun _ => (looks_read src).registers

theorem spares_store (name : String) (v : Value) : (store h name v).Spares := by
  intro m
  rw [on_store]

/-! ### Instructions and their registers -/

/-- An instruction that stores to no register leaves all as they are: also one that stores to a variable, or jumps to a
label, whatever its name. -/
theorem spares_instr (hi : i.register? = none) : (instr h capacity i).Spares := by
  cases i with
  | push src => exact (spares_read src).bind fun v => (spares_push v).bind fun _ => spares_pure _
  | pop dst =>
    cases dst with
    | register name => cases hi
    | direct name => exact spares_pop.bind fun v => (spares_store name v).bind fun _ => spares_pure _
  | move dst src =>
    cases dst with
    | register name => cases hi
    | direct name => exact (spares_read src).bind fun v => (spares_store name v).bind fun _ => spares_pure _
  | compare lhs rhs =>
    exact (spares_read lhs).bind fun a => (spares_number _ a).bind fun x => (spares_read rhs).bind fun b =>
      (spares_number _ b).bind fun y => (spares_push _).bind fun _ => spares_pure _
  | arith op =>
    exact spares_pop.bind fun b => spares_pop.bind fun a => (spares_number _ b).bind fun y =>
      (spares_number _ a).bind fun x => (spares_push _).bind fun _ => spares_pure _
  | negate => exact fun _ => looks_negate.registers (h := h)
  | adjust delta register => cases hi
  | logic op =>
    exact spares_pop.bind fun b => spares_pop.bind fun a => (spares_push _).bind fun _ => spares_pure _
  | jump condition target =>
    have hpopped : (do
        let v ← Exec.pop
        if condition.holds v then Exec.goto target else Pure.pure .next : Exec σ Flow).Spares := by
      apply spares_pop.bind
      intro v
      split
      · exact spares_goto target
      · exact spares_pure _
    cases condition with
    | always => exact spares_goto target
    | falsy => exact hpopped
    | truthy => exact hpopped
  | nop => exact spares_pure _

/-- An instruction that succeeds has stored its value in its register. -/
theorem registers_of_on_instr {flow : Flow} (hi : i.register? = some name)
    (hon : (instr h capacity i).on m = (.ok flow, m')) :
    ∃ v, i.stored? h m = some v ∧ m'.registers = m.registers.insert name v := by
  cases i with
  | pop dst =>
    cases dst <;> cases hi
    obtain ⟨v, m₁, hpop, hrest⟩ := on_bind_eq_ok_iff.mp hon
    cases hrest
    refine ⟨v, head?_of_on_pop hpop, ?_⟩
    rw [← spares_pop.of_on_eq hpop]
  | move dst src =>
    cases dst <;> cases hi
    obtain ⟨v, m₁, hread, hrest⟩ := on_bind_eq_ok_iff.mp hon
    cases hrest
    refine ⟨v, value?_of_on_read hread, ?_⟩
    rw [← (spares_read src).of_on_eq hread]
  | adjust delta register =>
    cases hi
    obtain ⟨v, m₁, hread, hrest⟩ := on_bind_eq_ok_iff.mp hon
    obtain ⟨x, m₂, hnumber, hrest⟩ := on_bind_eq_ok_iff.mp hrest
    obtain ⟨rfl, rfl⟩ := on_number_eq_ok_iff.mp hnumber
    cases hrest
    change (read h (.register name)).on m = _ at hread
    have hvalue : m.registers.get? name = some (.number x) := value?_of_on_read hread
    have hregisters := (spares_read _).of_on_eq hread
    refine ⟨.number (x.add delta.step), ?_, ?_⟩
    · rw [Instr.stored?, hvalue]
      rfl
    · rw [← hregisters]
  | _ => cases hi

/-- What an instruction that succeeds makes of any one register. -/
theorem get?_registers_of_on_instr {flow : Flow} (hon : (instr h capacity i).on m = (.ok flow, m')) (name : String) :
    m'.registers.get? name = if i.register? = some name then i.stored? h m else m.registers.get? name := by
  cases hi : i.register? with
  | none => rw [(spares_instr hi).of_on_eq hon, if_neg nofun]
  | some key =>
    obtain ⟨v, hv, hregisters⟩ := registers_of_on_instr hi hon
    rw [hregisters, hv, Table.get?_insert]
    simp only [Option.some.injEq]

end Exec

/-! ### Registers and what was executed -/

namespace Run

open Exec

variable {p : Program} {limits : Limits} {r r' : Run σ} {n : Nat} {ran : List (Machine σ × Instr)}

/-- What the register `name` holds after the instructions `ran`, before which no register was set. -/
inductive Held (h : Host σ) (name : String) (ran : List (Machine σ × Instr)) : (content : Option Value) → Prop where
  | unset (never : ∀ x ∈ ran, x.2.register? ≠ some name) : Held h name ran none
  | stored {before after : List (Machine σ × Instr)} {m : Machine σ} {i : Instr} {v : Value}
      (split : ran = before ++ (m, i) :: after) (register : i.register? = some name)
      (value : i.stored? h m = some v) (last : ∀ x ∈ after, x.2.register? ≠ some name)
      (created : ∃ x ∈ ran, x.2.destination? = some (.register name)) : Held h name ran (some v)

namespace Held

theorem snoc_of_ne {content : Option Value} (hheld : Held h name ran content) (hi : i.register? ≠ some name) :
    Held h name (ran ++ [(m, i)]) content := by
  have hlast {xs : List (Machine σ × Instr)} (hxs : ∀ x ∈ xs, x.2.register? ≠ some name) :
      ∀ x ∈ xs ++ [(m, i)], x.2.register? ≠ some name := by
    rw [List.forall_mem_append, List.forall_mem_singleton]
    exact ⟨hxs, hi⟩
  cases hheld with
  | unset hnever => exact .unset (hlast hnever)
  | @stored before after m₀ j v hsplit hregister hvalue hafter hcreated =>
    obtain ⟨x, hx, hdst⟩ := hcreated
    have hsplit' : ran ++ [(m, i)] = before ++ (m₀, j) :: (after ++ [(m, i)]) := by
      rw [hsplit, List.append_assoc, List.cons_append]
    exact .stored hsplit' hregister hvalue (hlast hafter) ⟨x, List.mem_append_left _ hx, hdst⟩

/-- An instruction has stored to the register. If it was not set, then the instruction has brought the value there. -/
theorem snoc_of_eq {v : Value} (hheld : Held h name ran (m.registers.get? name)) (hi : i.register? = some name)
    (hv : i.stored? h m = some v) : Held h name (ran ++ [(m, i)]) (some v) := by
  refine .stored rfl hi hv (List.forall_mem_nil _) ?_
  -- It remains to find where the register was first set.
  generalize hcontent : m.registers.get? name = content at hheld
  cases hheld with
  | unset hnever =>
    exact ⟨(m, i), List.mem_append_right _ (List.mem_singleton_self _), Instr.destination?_of_unset hi hv hcontent⟩
  | stored _ _ _ _ hcreated =>
    obtain ⟨x, hx, hdst⟩ := hcreated
    exact ⟨x, List.mem_append_left _ hx, hdst⟩

/-- The step: what is held before an instruction that succeeds, and after it. -/
theorem snoc {flow : Flow} (hheld : Held h name ran (m.registers.get? name))
    (hon : (instr h capacity i).on m = (.ok flow, m')) :
    Held h name (ran ++ [(m, i)]) (m'.registers.get? name) := by
  rw [get?_registers_of_on_instr hon]
  by_cases hi : i.register? = some name
  · obtain ⟨v, hv, -⟩ := registers_of_on_instr hi hon
    rw [if_pos hi, hv]
    exact hheld.snoc_of_eq hi hv
  · rw [if_neg hi]
    exact hheld.snoc_of_ne hi

/-- Nothing is held exactly if no value was brought there. -/
theorem eq_none_iff {content : Option Value} (hheld : Held h name ran content) :
    content = none ↔ ∀ x ∈ ran, x.2.destination? ≠ some (.register name) := by
  cases hheld with
  | unset hnever =>
    refine ⟨fun _ x hx hdst => ?_, fun _ => rfl⟩
    exact hnever x hx (Instr.register?_of_destination? hdst)
  | stored _ _ _ _ hcreated =>
    obtain ⟨x, hx, hdst⟩ := hcreated
    exact ⟨nofun, fun hnever => absurd hdst (hnever x hx)⟩

end Held

/-- The values that the instructions have stored in the register `name`, in order. -/
def stores (h : Host σ) (name : String) (ran : List (Machine σ × Instr)) : List (Option Value) :=
  (ran.filter (·.2.register? = some name)).map fun x => x.2.stored? h x.1

theorem stores_of_ne (hran : ∀ x ∈ ran, x.2.register? ≠ some name) : stores h name ran = [] := by
  have hfilter : ran.filter (·.2.register? = some name) = [] := by
    apply List.filter_eq_nil_iff.mpr
    intro x hx
    simpa using hran x hx
  rw [stores, hfilter, List.map_nil]

/-- The last of these values decides. -/
theorem Held.eq_getLast? {content : Option Value} (hheld : Held h name ran content) :
    content = (stores h name ran).getLast?.join := by
  cases hheld with
  | unset hnever =>
    rw [stores_of_ne hnever]
    rfl
  | @stored before after m i v hsplit hregister hvalue hlast hcreated =>
    have hstores : stores h name ran = stores h name before ++ [some v] := by
      have hafter : stores h name after = [] := stores_of_ne hlast
      unfold stores at hafter ⊢
      rw [hsplit, List.filter_append, List.filter_cons_of_pos (by simpa using hregister), List.map_append,
        List.map_cons, hafter, hvalue]
    rw [hstores, List.getLast?_concat]
    rfl

/-- What holds of a machine and of the instructions that have led to it, step by step, holds along a run. -/
theorem history_of_advance {I : List (Machine σ × Instr) → Machine σ → Prop}
    (hstep : ∀ ran m i flow m', I ran m → (instr h limits.stackCapacity i).on m = (.ok flow, m') →
      I (ran ++ [(m, i)]) m')
    (hr : I ran r.machine) (hrun : r.advance p limits h n = .running r') :
    I (ran ++ r.trail p limits h n) r'.machine := by
  -- The trail grows at its front and the history at its end, so what came before is generalised too.
  induction n generalizing r ran with
  | zero =>
    cases hrun
    rw [trail, List.append_nil]
    exact hr
  | succ n ih =>
    rw [advance] at hrun
    split at hrun
    · next r₁ hfirst =>
      obtain ⟨i, flow, m₁, hnext, hon, rfl⟩ := step_eq_running_iff.mp hfirst
      rw [trail_succ hfirst hnext, List.append_cons]
      exact ih (hstep ran r.machine i flow m₁ hr hon) hrun
    · cases hrun

/-- Wherever a run has come to, its registers hold what was stored last. -/
theorem held_of_advance {host : σ} (hrun : (start host).advance p limits h n = .running r) (name : String) :
    Held h name ((start host).trail p limits h n) (r.machine.registers.get? name) := by
  have hstart : Held h name [] ((start host).machine.registers.get? name) := .unset (List.forall_mem_nil _)
  exact history_of_advance (I := fun ran m => Held h name ran (m.registers.get? name))
    (fun _ _ _ _ _ hheld hon => hheld.snoc hon) hstart hrun

end Run

/-! ### Reads -/

/-- Executed on `m`, the instruction comes to read the operand `src`, which it does on the machine `m₁`, and goes on
with `rest`. The right side of a comparison is read if the left one is a number. -/
inductive Instr.ReadsOn (h : Host σ) (capacity : Nat) (m : Machine σ) :
    (i : Instr) → (src : Operand) → (m₁ : Machine σ) → (rest : Value → Exec σ Flow) → Prop where
  | push (src : Operand) :
      ReadsOn h capacity m (.push src) src m fun v => do
        Exec.push capacity v
        return .next
  | move (dst : Place) (src : Operand) :
      ReadsOn h capacity m (.move dst src) src m fun v => do
        Exec.write h v dst
        return .next
  | left (lhs rhs : Operand) :
      ReadsOn h capacity m (.compare lhs rhs) lhs m fun a => do
        let x ← Exec.number "cmp" a
        let b ← Exec.read h rhs
        let y ← Exec.number "cmp" b
        Exec.push capacity (.number (x.sub y))
        return .next
  | right {lhs rhs : Operand} {x : Number} {m₁ : Machine σ}
      (left : (Exec.read h lhs).on m = (.ok (.number x), m₁)) :
      ReadsOn h capacity m (.compare lhs rhs) rhs m₁ fun b => do
        let y ← Exec.number "cmp" b
        Exec.push capacity (.number (x.sub y))
        return .next
  | adjust (delta : Delta) (register : String) :
      ReadsOn h capacity m (.adjust delta register) (.register register) m fun v => do
        let x ← Exec.number delta.faultName v
        Exec.writeRegister register (.number (x.add delta.step))
        return .next

namespace Instr.ReadsOn

variable {src : Operand} {rest : Value → Exec σ Flow}

/-- From there on the instruction is the read and what follows it. -/
theorem on_instr (hreads : i.ReadsOn h capacity m src m₁ rest) :
    (Exec.instr h capacity i).on m = (Exec.read h src >>= rest).on m₁ := by
  cases hreads with
  | right hleft =>
    show (Exec.read h _ >>= _).on m = _
    rw [Exec.on_bind, hleft]
    rfl
  | _ => rfl

theorem registers (hreads : i.ReadsOn h capacity m src m₁ rest) : m₁.registers = m.registers := by
  cases hreads with
  | right hleft => exact (Exec.spares_read _).of_on_eq hleft
  | _ => rfl

end Instr.ReadsOn

namespace Exec

variable {τ : Type} {h' : Host τ} {w : Machine τ}

theorem on_read_register {v : Value} (hv : m.registers.get? name = some v) :
    (read h (.register name)).on m = (.ok v, m) := by
  show (readRegister name).on m = _
  rw [on_readRegister, hv]

/-- The answer depends on nothing but the content of the register. -/
theorem on_read_register_congr (hcontent : w.registers.get? name = m.registers.get? name) :
    ((read h' (.register name)).on w).1 = ((read h (.register name)).on m).1 := by
  show ((readRegister name).on w).1 = ((readRegister name).on m).1
  rw [on_readRegister, on_readRegister, hcontent]
  cases m.registers.get? name <;> rfl

theorem raises_read_unset_iff {src : Operand} :
    (read h src).Raises m (.unsetRegister name) ↔ src = .register name ∧ m.registers.get? name = none := by
  rw [raises_read_iff]
  constructor
  · rintro (⟨_, rfl, ⟨⟩, hunset⟩ | ⟨_, _, -, ⟨⟩, -⟩)
    exact ⟨rfl, hunset⟩
  · rintro ⟨rfl, hunset⟩
    exact .inl ⟨name, rfl, rfl, hunset⟩

/-- Such a fault comes from a read that the instruction came to. -/
theorem exists_readsOn_of_raises (hraises : (instr h capacity i).Raises m (.unsetRegister name)) :
    (∃ m₁ rest, i.ReadsOn h capacity m (.register name) m₁ rest) ∧ m.registers.get? name = none := by
  cases i with
  | push src =>
    rcases raises_bind_iff.mp hraises with hread | ⟨v, m₁, -, hrest⟩
    · obtain ⟨rfl, hunset⟩ := raises_read_unset_iff.mp hread
      exact ⟨⟨m, _, .push _⟩, hunset⟩
    · simp at hrest
  | move dst src =>
    rcases raises_bind_iff.mp hraises with hread | ⟨v, m₁, -, hrest⟩
    · obtain ⟨rfl, hunset⟩ := raises_read_unset_iff.mp hread
      exact ⟨⟨m, _, .move dst _⟩, hunset⟩
    · simp [raises_write_iff] at hrest
  | compare lhs rhs =>
    rcases raises_bind_iff.mp hraises with hread | ⟨a, m₁, hleft, hrest⟩
    · obtain ⟨rfl, hunset⟩ := raises_read_unset_iff.mp hread
      exact ⟨⟨m, _, .left _ rhs⟩, hunset⟩
    · rcases raises_bind_iff.mp hrest with hnumber | ⟨x, m₂, hnumber, hright⟩
      · simp at hnumber
      · obtain ⟨rfl, rfl⟩ := on_number_eq_ok_iff.mp hnumber
        rcases raises_bind_iff.mp hright with hread | ⟨b, m₃, -, hlast⟩
        · obtain ⟨rfl, hunset⟩ := raises_read_unset_iff.mp hread
          rw [(spares_read lhs).of_on_eq hleft] at hunset
          exact ⟨⟨_, _, .right hleft⟩, hunset⟩
        · simp [raises_bind_iff] at hlast
  | adjust delta register =>
    rcases raises_bind_iff.mp hraises with hread | ⟨v, m₁, -, hrest⟩
    · obtain ⟨⟨⟩, hunset⟩ := raises_readRegister_iff.mp hread
      exact ⟨⟨m, _, .adjust delta _⟩, hunset⟩
    · simp [raises_bind_iff] at hrest
  | _ =>
    -- The others read no operand.
    cases raisesOnly_instr _ m _ hraises with
    | unsetRegister hmem => cases hmem

/-- An instruction fails for want of a register exactly if it comes to read one that is not set. -/
theorem raises_unsetRegister_iff :
    (instr h capacity i).Raises m (.unsetRegister name) ↔
      (∃ m₁ rest, i.ReadsOn h capacity m (.register name) m₁ rest) ∧ m.registers.get? name = none := by
  constructor
  · exact exists_readsOn_of_raises
  · rintro ⟨⟨m₁, rest, hreads⟩, hunset⟩
    rw [← hreads.registers] at hunset
    obtain ⟨m', hon⟩ := raises_bind_iff.mpr (.inl (raises_read_unset_iff.mpr ⟨rfl, hunset⟩))
    exact ⟨m', hreads.on_instr.trans hon⟩

end Exec

open Run

/-- Wherever a run has come to, its next instruction fails for want of a register exactly if it comes to read one to
which no `pop` or `mov` executed before has brought a value. Otherwise the read finds what the last `pop`, `mov`, `inc`
or `dec` on the register has stored. Nothing else matters: where the same values were stored in the register, in
whatever run of whatever program, a read gives the same. -/
theorem register_reads_last_write (p : Program) (limits : Limits) (h : Host σ) (host : σ) {n : Nat} {r : Run σ}
    {i : Instr} (hrun : (start host).advance p limits h n = .running r) (hnext : r.next? p limits = some i)
    (name : String) :
    let ran := (start host).trail p limits h n
    (r.Faults p limits h (.unsetRegister name) ↔
        (∃ m₁ rest, i.ReadsOn h limits.stackCapacity r.machine (.register name) m₁ rest) ∧
          ∀ x ∈ ran, x.2.destination? ≠ some (.register name)) ∧
      (∀ m₁ rest, i.ReadsOn h limits.stackCapacity r.machine (.register name) m₁ rest →
        (∃ x ∈ ran, x.2.destination? = some (.register name)) →
        ∃ before m j after v, ran = before ++ (m, j) :: after ∧ j.register? = some name ∧ j.stored? h m = some v ∧
          (∀ x ∈ after, x.2.register? ≠ some name) ∧ (Exec.read h (.register name)).on m₁ = (.ok v, m₁) ∧
          (Exec.instr h limits.stackCapacity i).on r.machine = (rest v).on m₁) ∧
      ∀ m₁ rest, i.ReadsOn h limits.stackCapacity r.machine (.register name) m₁ rest →
        ∀ (τ : Type) (p' : Program) (limits' : Limits) (h' : Host τ) (host' : τ) (n' : Nat) (r' : Run τ),
          (start host').advance p' limits' h' n' = .running r' →
          stores h' name ((start host').trail p' limits' h' n') = stores h name ran →
          ∀ (i' : Instr) m₁' rest', i'.ReadsOn h' limits'.stackCapacity r'.machine (.register name) m₁' rest' →
            ((Exec.read h' (.register name)).on m₁').1 = ((Exec.read h (.register name)).on m₁).1 := by
  intro ran
  have hheld := held_of_advance hrun name
  refine ⟨?_, ?_, ?_⟩
  · rw [faults_iff hnext, Exec.raises_unsetRegister_iff, hheld.eq_none_iff]
  · intro m₁ rest hreads hcreated
    generalize hcontent : r.machine.registers.get? name = content at hheld
    cases hheld with
    | unset hnever =>
      obtain ⟨x, hx, hdst⟩ := hcreated
      exact absurd (Instr.register?_of_destination? hdst) (hnever x hx)
    | @stored before after m j v hsplit hregister hvalue hlast _ =>
      rw [← hreads.registers] at hcontent
      have hread := Exec.on_read_register (h := h) hcontent
      refine ⟨before, m, j, after, v, hsplit, hregister, hvalue, hlast, hread, ?_⟩
      rw [hreads.on_instr, Exec.on_bind, hread]
  · intro m₁ rest hreads τ p' limits' h' host' n' r' hrun' hstores i' m₁' rest' hreads'
    apply Exec.on_read_register_congr
    rw [hreads'.registers, hreads.registers, hheld.eq_getLast?, (held_of_advance hrun' name).eq_getLast?, hstores]

/-- A variable, a label and a register are called `r`. In the first program the variable is written, the label is
jumped to and another register is set, and `inc` still finds the register unset. In the second program the register is
moved to itself after `inc`, and the variable is written after that. -/
theorem register_reads_last_write_same_name :
    let unset : Program := ⟨#[.push (.immediate (.boolean true)), .pop (.direct "r"), .jump .always ⟨"r", some 3⟩,
      .move (.register "s") (.immediate (.boolean true)), .adjust .inc "r"], #[1, 2, 3, 4, 5]⟩
    let moved : Program := ⟨#[.move (.register "r") (.immediate (.number .one)), .adjust .inc "r",
      .move (.register "r") (.register "r"), .move (.direct "r") (.immediate (.boolean true)), .push (.register "r")],
      #[1, 2, 3, 4, 5]⟩
    (∃ r : Run Store, (start ∅).advance unset {} Host.store 4 = .running r ∧
        r.Faults unset {} Host.store (.unsetRegister "r")) ∧
      ∃ (r : Run Store) (before after : List (Machine Store × Instr)) (m : Machine Store) (j : Instr),
        (start ∅).advance moved {} Host.store 4 = .running r ∧
          (start ∅).trail moved {} Host.store 4 = before ++ (m, j) :: after ∧ j.register? = some "r" ∧
          j.stored? Host.store m = some (.number (Number.one.add .one)) ∧ ∀ x ∈ after, x.2.register? ≠ some "r" := by
  intro unset moved
  have hrun₁ : (start (∅ : Store)).advance unset {} Host.store 4 =
      .running ⟨⟨.empty, (∅ : Table Value).insert "s" (.boolean true), (∅ : Store).insert "r" (.boolean true),
        [.set "r" (.boolean true)]⟩, 4, 4⟩ := rfl
  have hrun₂ : (start (∅ : Store)).advance moved {} Host.store 4 =
      .running ⟨⟨.empty, (((∅ : Table Value).insert "r" (.number .one)).insert "r"
        (.number (Number.one.add .one))).insert "r" (.number (Number.one.add .one)),
        (∅ : Store).insert "r" (.boolean true), [.set "r" (.boolean true)]⟩, 4, 4⟩ := rfl
  constructor
  · refine ⟨_, hrun₁, ?_⟩
    refine (register_reads_last_write unset {} Host.store ∅ hrun₁ rfl "r").1.mpr ⟨⟨_, _, .adjust .inc "r"⟩, ?_⟩
    have hnone : ∀ j ∈ (start (∅ : Store)).executed unset {} Host.store 4, j.destination? ≠ some (.register "r") := by
      decide
    intro x hx
    apply hnone
    rw [← map_snd_trail]
    exact List.mem_map_of_mem hx
  · obtain ⟨before, m, j, after, v, hsplit, hregister, hvalue, hlast, hread, -⟩ :=
      (register_reads_last_write moved {} Host.store ∅ hrun₂ rfl "r").2.1 _ _ (.push _)
        ⟨_, List.mem_cons_self, rfl⟩
    cases hread
    exact ⟨_, before, after, m, j, hrun₂, hsplit, hregister, hvalue, hlast⟩

end StackScript
