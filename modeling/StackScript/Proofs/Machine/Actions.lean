import StackScript.Proofs.Machine.Exec

/-!
# How actions end

An action of the machine ends with a value or with a fault, and it leaves a state either way. What it
does follows from its steps:

* `on_bind_eq_ok_iff` and `raises_bind_iff` take the end of a sequence apart, and each primitive
  action has one exact condition for its success and one for its fault;
* `Inherited P` says that the primitive actions have the property `P` and that sequences keep it, so
  every instruction has it (`Inherited.instr`);
* `Keeps R` says that `R` holds between the states before and after an action. If the primitive
  actions keep a preorder (`Kept`), so does every instruction (`Kept.instr`).
-/

namespace StackScript

variable {σ α β : Type} {h : Host σ} {capacity : Nat} {m m' : Machine σ}

/-! ### The stack of a machine -/

@[simp] theorem Machine.withStack_items (m : Machine σ) : m.withStack m.stack.items = m := by
  obtain ⟨stack, registers, host, calls⟩ := m
  show (⟨Stack.ofList stack.items, registers, host, calls⟩ : Machine σ) = _
  congr 1
  exact Stack.ext rfl

@[simp] theorem Machine.items_withStack (m : Machine σ) (vs : List Value) :
    (m.withStack vs).stack.items = vs := rfl

@[simp] theorem Machine.withStack_withStack (m : Machine σ) (vs ws : List Value) :
    (m.withStack vs).withStack ws = m.withStack ws := rfl

theorem Stack.depth_eq_zero_iff {s : Stack} : s.depth = 0 ↔ s.items = [] := by
  rw [s.depth_eq, List.length_eq_zero_iff]

theorem Stack.depth_replaceTop (s : Stack) (v : Value) : (s.replaceTop v).depth = s.depth := by
  unfold replaceTop
  split <;> rfl

namespace Exec

variable {x : Exec σ α} {f : α → Exec σ β} {e : Fault} {v : Value} {name : String}

/-! ### Success and fault of a sequence -/

/-- The action ends with the fault `e`. -/
def Raises (x : Exec σ α) (m : Machine σ) (e : Fault) : Prop := ∃ m', x.on m = (.error e, m')

theorem on_bind_eq_ok_iff {b : β} :
    (x >>= f).on m = (.ok b, m') ↔ ∃ a m₁, x.on m = (.ok a, m₁) ∧ (f a).on m₁ = (.ok b, m') := by
  rw [on_bind]
  rcases x.on m with ⟨_ | a, m₁⟩
  · simp
  · constructor
    · intro hf
      exact ⟨a, m₁, rfl, hf⟩
    · rintro ⟨_, _, ⟨⟩, hf⟩
      exact hf

theorem raises_bind_iff :
    (x >>= f).Raises m e ↔ x.Raises m e ∨ ∃ a m₁, x.on m = (.ok a, m₁) ∧ (f a).Raises m₁ e := by
  unfold Raises
  rw [on_bind]
  rcases x.on m with ⟨_ | a, m₁⟩
  · simp
  · constructor
    · intro hf
      exact .inr ⟨a, m₁, rfl, hf⟩
    · rintro (⟨_, ⟨⟩⟩ | ⟨_, _, ⟨⟩, hf⟩)
      exact hf

@[simp] theorem raises_map_iff {g : α → β} : (g <$> x).Raises m e ↔ x.Raises m e := by
  rw [map_eq_pure_bind, raises_bind_iff]
  simp [Raises]

@[simp] theorem not_raises_pure {a : α} : ¬(pure a : Exec σ α).Raises m e := by
  simp [Raises]

@[simp] theorem raises_throw_iff {e' : Fault} : (throw e' : Exec σ α).Raises m e ↔ e = e' := by
  simp [Raises, eq_comm]

/-! ### The stack -/

theorem on_push_self :
    (push capacity v : Exec σ Unit).on m =
      if m.stack.depth < capacity then (.ok (), m.withStack (v :: m.stack.items))
      else (.error (.stackOverflow capacity), m) := by
  have hpush := @on_push σ capacity m m.stack.items v
  rwa [Machine.withStack_items, ← m.stack.depth_eq] at hpush

theorem on_push_eq_ok_iff {u : Unit} :
    (push capacity v : Exec σ Unit).on m = (.ok u, m') ↔
      m.stack.depth < capacity ∧ m' = m.withStack (v :: m.stack.items) := by
  rw [on_push_self]
  split
  · next hlt => simp [hlt, eq_comm]
  · next hlt => simp [hlt]

@[simp] theorem raises_push_iff :
    (push capacity v : Exec σ Unit).Raises m e ↔ e = .stackOverflow capacity ∧ capacity ≤ m.stack.depth := by
  unfold Raises
  rw [on_push_self]
  split
  · next hlt => simp [hlt]
  · next hlt => simp [Nat.not_lt.mp hlt, eq_comm]

theorem on_pop_self :
    (pop : Exec σ Value).on m =
      match m.stack.items with
      | v :: vs => (.ok v, m.withStack vs)
      | [] => (.error .stackUnderflow, m) := by
  cases hitems : m.stack.items with
  | cons v vs =>
    have hm := m.withStack_items
    rw [hitems] at hm
    rw [← hm]
    rfl
  | nil =>
    have hm := m.withStack_items
    rw [hitems] at hm
    rw [← hm]
    rfl

theorem on_pop_eq_ok_iff :
    (pop : Exec σ Value).on m = (.ok v, m') ↔ ∃ vs, m.stack.items = v :: vs ∧ m' = m.withStack vs := by
  rw [on_pop_self]
  split
  · next w ws hitems =>
    rw [hitems]
    constructor
    · rintro ⟨⟩
      exact ⟨ws, rfl, rfl⟩
    · rintro ⟨vs, ⟨⟩, rfl⟩
      rfl
  · next hitems => simp [hitems]

@[simp] theorem raises_pop_iff :
    (pop : Exec σ Value).Raises m e ↔ e = .stackUnderflow ∧ m.stack.items = [] := by
  unfold Raises
  rw [on_pop_self]
  split
  · next w ws hitems => simp [hitems]
  · next hitems => simp [hitems, eq_comm]

theorem raises_pop_bind_iff {f : Value → Exec σ α} :
    (pop >>= f).Raises m e ↔
      (e = .stackUnderflow ∧ m.stack.items = []) ∨
        ∃ v vs, m.stack.items = v :: vs ∧ (f v).Raises (m.withStack vs) e := by
  rw [raises_bind_iff, raises_pop_iff]
  refine or_congr Iff.rfl ?_
  constructor
  · rintro ⟨v, _, hpop, hrest⟩
    obtain ⟨vs, hitems, rfl⟩ := on_pop_eq_ok_iff.mp hpop
    exact ⟨v, vs, hitems, hrest⟩
  · rintro ⟨v, vs, hitems, hrest⟩
    exact ⟨v, m.withStack vs, on_pop_eq_ok_iff.mpr ⟨vs, hitems, rfl⟩, hrest⟩

theorem raises_pop_pop_bind_iff {f : Value → Value → Exec σ α} :
    (do
      let b ← pop
      let a ← pop
      f b a).Raises m e ↔
      (e = .stackUnderflow ∧ m.stack.depth < 2) ∨
        ∃ b a vs, m.stack.items = b :: a :: vs ∧ (f b a).Raises (m.withStack vs) e := by
  simp only [raises_pop_bind_iff]
  rw [m.stack.depth_eq]
  rcases m.stack.items with _ | ⟨b, _ | ⟨a, vs⟩⟩
  · simp
  · simp [and_assoc]
  · have hlength : ¬vs.length + 1 + 1 < 2 := by omega
    simp [and_assoc, hlength]

/-! ### Registers and numbers -/

theorem on_readRegister :
    (readRegister name : Exec σ Value).on m =
      match m.registers.get? name with
      | some v => (.ok v, m)
      | none => (.error (.unsetRegister name), m) := by
  simp only [readRegister, on_bind, on_get]
  cases m.registers.get? name <;> rfl

@[simp] theorem raises_readRegister_iff :
    (readRegister name : Exec σ Value).Raises m e ↔
      e = .unsetRegister name ∧ m.registers.get? name = none := by
  unfold Raises
  rw [on_readRegister]
  cases m.registers.get? name <;> simp [eq_comm]

theorem on_writeRegister :
    (writeRegister name v : Exec σ Unit).on m =
      (.ok (), { m with registers := m.registers.insert name v }) := rfl

@[simp] theorem not_raises_writeRegister : ¬(writeRegister name v : Exec σ Unit).Raises m e := by
  simp [Raises, on_writeRegister]

theorem on_number_eq_ok_iff {mnemonic : String} {y : Number} :
    (number mnemonic v : Exec σ Number).on m = (.ok y, m') ↔ v = .number y ∧ m' = m := by
  rw [on_number]
  cases v <;> simp [Value.number?, eq_comm]

@[simp] theorem raises_number_iff {mnemonic : String} :
    (number mnemonic v : Exec σ Number).Raises m e ↔
      e = .typeMismatch mnemonic v.type ∧ v.number? = none := by
  unfold Raises
  rw [on_number]
  cases v <;> simp [Value.number?, eq_comm]

/-! ### The host -/

theorem on_fetch :
    (fetch h name).on m =
      (match (h.get name m.host).1 with
        | .ok v => .ok v
        | .error f => .error (.host f),
        { m with host := (h.get name m.host).2, calls := .get name :: m.calls }) := by
  simp only [fetch, on_bind, on_get, on_set]
  cases (h.get name m.host).1 <;> rfl

theorem on_store :
    (store h name v).on m =
      (match (h.set name v m.host).1 with
        | .ok () => .ok ()
        | .error f => .error (.host f),
        { m with host := (h.set name v m.host).2, calls := .set name v :: m.calls }) := by
  simp only [store, on_bind, on_get, on_set]
  cases (h.set name v m.host).1 <;> rfl

/-- A fault of the host is raised as it is. -/
@[simp] theorem raises_fetch_iff :
    (fetch h name).Raises m e ↔ ∃ f, e = .host f ∧ (h.get name m.host).1 = .error f := by
  unfold Raises
  rw [on_fetch]
  cases (h.get name m.host).1 <;> simp [eq_comm]

@[simp] theorem raises_store_iff :
    (store h name v).Raises m e ↔ ∃ f, e = .host f ∧ (h.set name v m.host).1 = .error f := by
  unfold Raises
  rw [on_store]
  cases (h.set name v m.host).1 <;> simp [eq_comm]

/-! ### Operands -/

theorem raises_read_iff {src : Operand} :
    (read h src).Raises m e ↔
      (∃ name, src = .register name ∧ e = .unsetRegister name ∧ m.registers.get? name = none) ∨
        ∃ name f, src = .direct name ∧ e = .host f ∧ (h.get name m.host).1 = .error f := by
  cases src <;> simp [read]

theorem raises_write_iff {dst : Place} :
    (write h v dst).Raises m e ↔
      ∃ name f, dst = .direct name ∧ e = .host f ∧ (h.set name v m.host).1 = .error f := by
  cases dst <;> simp [write]

theorem raises_goto_iff {target : Target} :
    (goto target : Exec σ Flow).Raises m e ↔
      e = .unresolvedLabel target.label ∧ target.position = none := by
  unfold goto
  cases target.position <;> simp

/-- Reading an operand leaves the stack alone. -/
theorem stack_on_read (src : Operand) : ((read h src).on m).2.stack = m.stack := by
  cases src with
  | immediate w => rfl
  | register name =>
    show ((readRegister name).on m).2.stack = m.stack
    rw [on_readRegister]
    split <;> rfl
  | direct name =>
    show ((fetch h name).on m).2.stack = m.stack
    rw [on_fetch]

theorem stack_of_on_read {src : Operand} {x : Except Fault Value} (hread : (read h src).on m = (x, m')) :
    m'.stack = m.stack := by
  have hstack := @stack_on_read σ h m src
  rw [hread] at hstack
  exact hstack

theorem stack_on_write (dst : Place) : ((write h v dst).on m).2.stack = m.stack := by
  cases dst with
  | register name => rfl
  | direct name =>
    show ((store h name v).on m).2.stack = m.stack
    rw [on_store]

/-! ### What instructions inherit -/

/-- A property of actions that the primitive ones have and that sequences of them keep. Negation counts
as primitive, for it sets the state itself. -/
structure Inherited (h : Host σ) (capacity : Nat) (P : (α : Type) → Exec σ α → Prop) : Prop where
  pure : ∀ {α : Type} (a : α), P α (pure a)
  bind : ∀ {α β : Type} {x : Exec σ α} {f : α → Exec σ β}, P α x → (∀ a, P β (f a)) → P β (x >>= f)
  push : ∀ v, P Unit (push capacity v)
  pop : P Value pop
  negate : P Flow (instr h capacity .negate)
  readRegister : ∀ name, P Value (readRegister name)
  writeRegister : ∀ name v, P Unit (writeRegister name v)
  number : ∀ mnemonic v, P Number (number mnemonic v)
  fetch : ∀ name, P Value (fetch h name)
  store : ∀ name v, P Unit (store h name v)
  goto : ∀ target, P Flow (goto target)

namespace Inherited

variable {P : (α : Type) → Exec σ α → Prop} (hP : Inherited h capacity P)

include hP

theorem read (src : Operand) : P Value (read h src) := by
  cases src with
  | immediate v => exact hP.pure v
  | register name => exact hP.readRegister name
  | direct name => exact hP.fetch name

theorem write (v : Value) (dst : Place) : P Unit (write h v dst) := by
  cases dst with
  | register name => exact hP.writeRegister name v
  | direct name => exact hP.store name v

/-- An instruction is made of primitive actions. -/
theorem instr (i : Instr) : P Flow (instr h capacity i) := by
  cases i with
  | push src =>
    exact hP.bind (hP.read src) fun v => hP.bind (hP.push v) fun _ => hP.pure _
  | pop dst =>
    exact hP.bind hP.pop fun v => hP.bind (hP.write v dst) fun _ => hP.pure _
  | move dst src =>
    exact hP.bind (hP.read src) fun v => hP.bind (hP.write v dst) fun _ => hP.pure _
  | compare lhs rhs =>
    exact hP.bind (hP.read lhs) fun a => hP.bind (hP.number _ a) fun x =>
      hP.bind (hP.read rhs) fun b => hP.bind (hP.number _ b) fun y =>
        hP.bind (hP.push _) fun _ => hP.pure _
  | arith op =>
    exact hP.bind hP.pop fun b => hP.bind hP.pop fun a => hP.bind (hP.number _ b) fun y =>
      hP.bind (hP.number _ a) fun x => hP.bind (hP.push _) fun _ => hP.pure _
  | negate => exact hP.negate
  | adjust delta register =>
    exact hP.bind (hP.readRegister register) fun v => hP.bind (hP.number _ v) fun x =>
      hP.bind (hP.writeRegister register _) fun _ => hP.pure _
  | logic op =>
    exact hP.bind hP.pop fun b => hP.bind hP.pop fun a => hP.bind (hP.push _) fun _ => hP.pure _
  | jump condition target =>
    have hpopped : P Flow (do
        let v ← Exec.pop
        if condition.holds v then Exec.goto target else Pure.pure .next) := by
      apply hP.bind hP.pop
      intro v
      split
      · exact hP.goto target
      · exact hP.pure _
    cases condition with
    | always => exact hP.goto target
    | falsy => exact hpopped
    | truthy => exact hpopped
  | nop => exact hP.pure _

end Inherited

/-! ### What actions keep -/

/-- Whatever the action does, `R` holds between the states before and after it. -/
def Keeps (R : Machine σ → Machine σ → Prop) (x : Exec σ α) : Prop := ∀ m, R m (x.on m).2

/-- A preorder on states that every primitive action keeps. -/
structure Kept (h : Host σ) (capacity : Nat) (R : Machine σ → Machine σ → Prop) : Prop where
  refl : ∀ m, R m m
  trans : ∀ {m₁ m₂ m₃}, R m₁ m₂ → R m₂ m₃ → R m₁ m₃
  push : ∀ v, Keeps R (push capacity v)
  pop : Keeps R pop
  replaceTop : ∀ m v, R m { m with stack := m.stack.replaceTop v }
  writeRegister : ∀ name v, Keeps R (writeRegister name v)
  fetch : ∀ name, Keeps R (fetch h name)
  store : ∀ name v, Keeps R (store h name v)

namespace Kept

variable {R : Machine σ → Machine σ → Prop} (hR : Kept h capacity R)

include hR

theorem bind (hx : Keeps R x) (hf : ∀ a, Keeps R (f a)) : Keeps R (x >>= f) := by
  intro m
  have hfirst := hx m
  rw [on_bind]
  rcases hon : x.on m with ⟨_ | a, m₁⟩
  · rw [hon] at hfirst
    exact hfirst
  · rw [hon] at hfirst
    exact hR.trans hfirst (hf a m₁)

theorem negate : Keeps R (Exec.instr h capacity .negate) := by
  intro m
  simp only [Exec.instr, on_bind, on_get]
  split
  · next v htop =>
    cases v with
    | number x => exact hR.replaceTop m _
    | _ => exact hR.refl m
  · exact hR.refl m

/-- What the primitive actions keep, instructions keep. -/
theorem inherited : Inherited h capacity fun _ x => Keeps R x where
  pure _ := hR.refl
  bind := hR.bind
  push := hR.push
  pop := hR.pop
  negate := hR.negate
  readRegister name m := by
    rw [on_readRegister]
    split <;> exact hR.refl m
  writeRegister := hR.writeRegister
  number mnemonic v m := by
    rw [on_number]
    split <;> exact hR.refl m
  fetch := hR.fetch
  store := hR.store
  goto target m := by
    unfold Exec.goto
    split <;> exact hR.refl m

theorem instr (i : Instr) : Keeps R (instr h capacity i) := hR.inherited.instr i

end Kept

/-- The requests made so far stay in the log. -/
theorem kept_log (h : Host σ) (capacity : Nat) :
    Kept h capacity fun m m' => m.log <+: m'.log where
  refl m := List.prefix_refl _
  trans h₁ h₂ := h₁.trans h₂
  push v m := by
    rw [on_push_self]
    split <;> exact List.prefix_refl _
  pop m := by
    rw [on_pop_self]
    split <;> exact List.prefix_refl _
  replaceTop m v := List.prefix_refl _
  writeRegister name v m := List.prefix_refl _
  fetch name m := by
    rw [on_fetch]
    exact ⟨[.get name], by simp [Machine.log]⟩
  store name v m := by
    rw [on_store]
    exact ⟨[.set name v], by simp [Machine.log]⟩

end Exec
end StackScript
