import StackScript.Machine.Exec

/-!
# What instructions do

The actions of the machine as functions of its state: each has one equation that says what it
returns and what state it leaves, for a machine whose stack is written out as a list of values
(`Machine.withStack`).
-/

namespace StackScript

/-- The stack of some values, topmost first. -/
def Stack.ofList (vs : List Value) : Stack := ⟨vs, vs.length, rfl⟩

/-- The machine with other values on its stack. -/
def Machine.withStack {σ : Type} (m : Machine σ) (vs : List Value) :
    Machine σ := { m with stack := .ofList vs }

/-- An operation has the same name in its faults as in scripts. -/
theorem Arith.faultName_eq (op : Arith) : op.faultName = (Kind.arith op).mnemonic := by
  cases op <;> rfl

theorem Delta.faultName_eq (delta : Delta) : delta.faultName = (Kind.adjust delta).mnemonic := by
  cases delta <;> rfl

namespace Exec

variable {σ α β : Type} {h : Host σ} {capacity : Nat} {m : Machine σ} {vs : List Value} {a b v : Value}

/-! ### Actions -/

/-- What an action returns and the state it leaves. -/
def on (x : Exec σ α) (m : Machine σ) : Except Fault α × Machine σ := x.run.run m

@[simp] theorem on_pure (a : α) (m : Machine σ) : (pure a : Exec σ α).on m = (.ok a, m) := rfl

@[simp] theorem on_throw (e : Fault) (m : Machine σ) : (throw e : Exec σ α).on m = (.error e, m) := rfl

@[simp] theorem on_get (m : Machine σ) : (get : Exec σ (Machine σ)).on m = (.ok m, m) := rfl

@[simp] theorem on_set (m' m : Machine σ) : (set m' : Exec σ PUnit).on m = (.ok ⟨⟩, m') := rfl

theorem on_bind (x : Exec σ α) (f : α → Exec σ β) (m : Machine σ) :
    (x >>= f).on m =
      match x.on m with
      | (.ok a, m') => (f a).on m'
      | (.error e, m') => (.error e, m') := by
  show ((x >>= f).run.run m) = _
  rw [ExceptT.run_bind, StateT.run_bind]
  unfold on
  rcases x.run.run m with ⟨_ | _, _⟩ <;> rfl

theorem on_push :
    (push capacity v : Exec σ Unit).on (m.withStack vs) =
      if vs.length < capacity then (.ok (), m.withStack (v :: vs))
      else (.error (.stackOverflow capacity), m.withStack vs) := by
  by_cases hlt : vs.length < capacity
  · simp [push, on_bind, Stack.push, Machine.withStack, Stack.ofList, hlt]
  · simp [push, on_bind, Stack.push, Machine.withStack, Stack.ofList, hlt]

theorem on_pop_cons : (pop : Exec σ Value).on (m.withStack (v :: vs)) = (.ok v, m.withStack vs) := rfl

theorem on_number (mnemonic : String) :
    (number mnemonic v : Exec σ Number).on m =
      match v.number? with
      | some x => (.ok x, m)
      | none => (.error (.typeMismatch mnemonic v.type), m) := by
  cases v <;> rfl

/-! ### Instructions -/

theorem on_instr_push :
    (instr h capacity (.push (.immediate v))).on (m.withStack vs) =
      if vs.length < capacity then (.ok .next, m.withStack (v :: vs))
      else (.error (.stackOverflow capacity), m.withStack vs) := by
  simp only [instr, read, pure_bind, on_bind, on_push]
  by_cases hlt : vs.length < capacity
  · simp only [if_pos hlt, on_pure]
  · simp only [if_neg hlt]

theorem on_instr_negate :
    (instr h capacity .negate).on (m.withStack (v :: vs)) =
      match v.number? with
      | some x => (.ok .next, m.withStack (.number x.neg :: vs))
      | none => (.error (.typeMismatch "neg" v.type), m.withStack (v :: vs)) := by
  cases v <;> rfl

/-- The topmost value, which is the right one, is checked first. -/
theorem on_instr_arith {op : Arith} (hlt : vs.length < capacity) :
    (instr h capacity (.arith op)).on (m.withStack (b :: a :: vs)) =
      match b.number?, a.number? with
      | some y, some x => (.ok .next, m.withStack (.number (op.apply x y) :: vs))
      | some _, none => (.error (.typeMismatch (Kind.arith op).mnemonic a.type), m.withStack vs)
      | none, _ => (.error (.typeMismatch (Kind.arith op).mnemonic b.type), m.withStack vs) := by
  simp only [instr, on_bind, on_pop_cons, on_number, Arith.faultName_eq]
  cases b.number? with
  | none => rfl
  | some y =>
    cases a.number? with
    | none => rfl
    | some x => simp [on_push, hlt]

theorem on_instr_logic {op : Logic} (hlt : vs.length < capacity) :
    (instr h capacity (.logic op)).on (m.withStack (b :: a :: vs)) =
      (.ok .next, m.withStack (op.apply a b :: vs)) := by
  simp only [instr, on_bind, on_pop_cons, on_push, if_pos hlt, on_pure]

end Exec
end StackScript
