import StackScript.Machine.Exec
import StackScript.Machine.Limits
import StackScript.Program.Basic

/-!
# Runs

A run executes the instructions of a program one by one until control leaves the program, an instruction
fails, or the step limit is reached. `Run.step` is one step of it, and `Run.advance` takes up to a given
number of steps, so every definition here is total although a run need not end.

A run that leaves the program ends well if at most one value is on the stack; that value is its result.

There is a run only if the memory for its stack can be set aside (`Run.start?`). Otherwise the program is aborted before
its first instruction, without a result or a fault.
-/

namespace StackScript

/-- A run between two instructions. -/
structure Run (σ : Type) where
  machine : Machine σ
  /-- The index of the next instruction. -/
  index : Nat
  /-- The number of instructions executed. -/
  steps : Nat

/-- A run that has ended. -/
structure Outcome (σ : Type) where
  /-- The value left on the stack, if any, or the fault. -/
  result : Except Fault (Option Value)
  steps : Nat
  machine : Machine σ

/-- What a step makes of a run. -/
inductive Progress (σ : Type) where
  | running (run : Run σ)
  | ended (outcome : Outcome σ)

namespace Run

variable {σ : Type}

/-- The run before its first instruction. -/
def start (host : σ) : Run σ := ⟨.initial host, 0, 0⟩

/-- The run before its first instruction, if there can be a stack of the capacity that it is given. -/
def start? (limits : Limits) (host : σ) : Option (Run σ) := do
  let machine ← Machine.initial? limits.stackCapacity host
  return ⟨machine, 0, 0⟩

/-- What is left when control leaves the program. -/
def result (m : Machine σ) : Except Fault (Option Value) :=
  match m.stack.items with
  | [] => .ok none
  | [v] => .ok (some v)
  | _ => .error (.stackImbalance m.stack.depth)

/-- Whether the step limit allows no further instruction. -/
def exhausted (limits : Limits) (r : Run σ) : Bool :=
  match limits.maxSteps with
  | some limit => decide (limit ≤ r.steps)
  | none => false

/-- Executes `i`, the instruction at the index of the run. -/
def execute (p : Program) (limits : Limits) (h : Host σ) (i : Instr) (r : Run σ) : Progress σ :=
  match (Exec.instr h limits.stackCapacity i).run.run r.machine with
  | (.ok .next, m) => .running ⟨m, r.index + 1, r.steps + 1⟩
  | (.ok (.jump index), m) => .running ⟨m, index, r.steps + 1⟩
  | (.error e, m) => .ended ⟨.error (e.locate r.index (p.line r.index)), r.steps + 1, m⟩

/-- The instruction that the next step executes, unless the run ends there. -/
def next? (p : Program) (limits : Limits) (r : Run σ) : Option Instr :=
  if r.exhausted limits then none else p.code[r.index]?

/-- One step of a run. -/
def step (p : Program) (limits : Limits) (h : Host σ) (r : Run σ) : Progress σ :=
  match p.code[r.index]? with
  | none => .ended ⟨result r.machine, r.steps, r.machine⟩
  | some i =>
    match limits.maxSteps with
    | some limit =>
      if limit ≤ r.steps then .ended ⟨.error (.stepLimitExceeded limit), r.steps, r.machine⟩
      else r.execute p limits h i
    | none => r.execute p limits h i

/-- Up to `fuel` steps of a run. -/
def advance (p : Program) (limits : Limits) (h : Host σ) : (fuel : Nat) → Run σ → Progress σ
  | 0, r => .running r
  | fuel + 1, r =>
    match r.step p limits h with
    | .running r' => advance p limits h fuel r'
    | .ended outcome => .ended outcome

end Run

/-- Starts a program and takes up to `fuel` steps, unless it is aborted for want of a stack. -/
def Program.launch? {σ : Type} (p : Program) (limits : Limits) (h : Host σ) (host : σ) (fuel : Nat) :
    Option (Progress σ) := do
  let r ← Run.start? limits host
  return r.advance p limits h fuel

/-- The outcome of a program, if it ends within `fuel` steps and the last of them finds the end. The program has
been started: this is about a machine with a stack. -/
def Program.run? {σ : Type} (p : Program) (limits : Limits) (h : Host σ) (host : σ) (fuel : Nat) :
    Option (Outcome σ) :=
  match (Run.start host).advance p limits h fuel with
  | .running _ => none
  | .ended outcome => some outcome

end StackScript
