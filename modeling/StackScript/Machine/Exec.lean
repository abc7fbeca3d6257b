import StackScript.Instr.Basic
import StackScript.Machine.Host
import StackScript.Machine.Stack

/-!
# Executing an instruction

The state of the machine is the data stack, the registers and the state of the host; it also records the
requests made to the host. Executing an instruction is an action on that state which may fail, and what it
did before it failed stays done.

The order of the parts of an instruction shows in its faults and in the requests: a source is read before
a place is written, the left side of a comparison is read and checked before the right side is, and of two
popped numbers the topmost, which is the right one, is checked first.
-/

namespace StackScript

structure Machine (σ : Type) where
  stack : Stack
  registers : Table Value
  host : σ
  /-- The requests made so far, latest first. -/
  calls : List Call

/-- The machine at the start of a run. -/
def Machine.initial {σ : Type} (host : σ) : Machine σ := ⟨.empty, ∅, host, []⟩

/-- The machine at the start of a run on a stack of the given capacity, if there can be such a stack. -/
def Machine.initial? {σ : Type} (capacity : Nat) (host : σ) : Option (Machine σ) := do
  let stack ← Stack.withCapacity? capacity
  return ⟨stack, ∅, host, []⟩

/-- The requests made so far, in order. -/
def Machine.log {σ : Type} (m : Machine σ) : List Call := m.calls.reverse

/-- Actions on the machine, which may fail. -/
abbrev Exec (σ : Type) := ExceptT Fault (StateM (Machine σ))

/-- Where control goes after an instruction. -/
inductive Flow where
  | next
  | jump (index : Nat)
deriving DecidableEq, Repr

namespace Exec

variable {σ : Type}

/-! ### Stack and registers -/

def push (capacity : Nat) (v : Value) : Exec σ Unit := do
  let m ← get
  match m.stack.push capacity v with
  | .ok stack => set { m with stack }
  | .error e => throw e

def pop : Exec σ Value := do
  let m ← get
  match m.stack.pop with
  | .ok (v, stack) => set { m with stack }; return v
  | .error e => throw e

def readRegister (name : String) : Exec σ Value := do
  match (← get).registers.get? name with
  | some v => return v
  | none => throw (.unsetRegister name)

def writeRegister (name : String) (v : Value) : Exec σ Unit :=
  modify fun m => { m with registers := m.registers.insert name v }

/-- The number in a value that the operation `name` needs as a number. -/
def number (name : String) (v : Value) : Exec σ Number :=
  match v with
  | .number x => return x
  | v => throw (.typeMismatch name v.type)

/-! ### Requests to the host -/

def fetch (h : Host σ) (name : String) : Exec σ Value := do
  let m ← get
  let (answer, host) := h.get name m.host
  set { m with host, calls := .get name :: m.calls }
  match answer with
  | .ok v => return v
  | .error e => throw (.host e)

def store (h : Host σ) (name : String) (v : Value) : Exec σ Unit := do
  let m ← get
  let (answer, host) := h.set name v m.host
  set { m with host, calls := .set name v :: m.calls }
  match answer with
  | .ok () => return ()
  | .error e => throw (.host e)

/-! ### Operands -/

def read (h : Host σ) : Operand → Exec σ Value
  | .immediate v => return v
  | .register name => readRegister name
  | .direct name => fetch h name

def write (h : Host σ) (v : Value) : Place → Exec σ Unit
  | .register name => writeRegister name v
  | .direct name => store h name v

/-- Where a jump goes. -/
def goto (target : Target) : Exec σ Flow :=
  match target.position with
  | some index => return .jump index
  | none => throw (.unresolvedLabel target.label)

end Exec

/-! ### The operations -/

/-- What an operation makes of two numbers. Division is not implemented by this machine: `div` subtracts. -/
def Arith.apply : Arith → Number → Number → Number
  | .add => Number.add
  | .sub => Number.sub
  | .mul => Number.mul
  | .div => Number.sub

/-- The name of an operation in its faults. -/
def Arith.faultName : Arith → String
  | .add => "add"
  | .sub => "sub"
  | .mul => "mul"
  | .div => "div"

/-- What an operation makes of two values: one of them, chosen by the truth of the first. -/
def Logic.apply : Logic → Value → Value → Value
  | .and, a, b => if a.truthy then b else a
  | .or, a, b => if a.truthy then a else b

/-- What is added to a register. -/
def Delta.step : Delta → Number
  | .inc => .one
  | .dec => .minusOne

/-- The name of such an addition in its faults. -/
def Delta.faultName : Delta → String
  | .inc => "inc"
  | .dec => "dec"

/-- Whether a jump is taken on a value. -/
def Condition.holds : Condition → Value → Bool
  | .always, _ => true
  | .falsy, v => !v.truthy
  | .truthy, v => v.truthy

namespace Exec

/-- Executes an instruction on a machine whose stack holds at most `capacity` values. -/
def instr {σ : Type} (h : Host σ) (capacity : Nat) : Instr → Exec σ Flow
  | .push src => do
    let v ← read h src
    push capacity v
    return .next
  | .pop dst => do
    let v ← pop
    write h v dst
    return .next
  | .move dst src => do
    let v ← read h src
    write h v dst
    return .next
  | .compare lhs rhs => do
    let a ← read h lhs
    let x ← number "cmp" a
    let b ← read h rhs
    let y ← number "cmp" b
    push capacity (.number (x.sub y))
    return .next
  | .arith op => do
    let b ← pop
    let a ← pop
    let y ← number op.faultName b
    let x ← number op.faultName a
    push capacity (.number (op.apply x y))
    return .next
  | .negate => do
    let m ← get
    match m.stack.top with
    | .ok v =>
      let x ← number "neg" v
      set { m with stack := m.stack.replaceTop (.number x.neg) }
      return .next
    | .error e => throw e
  | .adjust delta register => do
    let v ← readRegister register
    let x ← number delta.faultName v
    writeRegister register (.number (x.add delta.step))
    return .next
  | .logic op => do
    let b ← pop
    let a ← pop
    push capacity (op.apply a b)
    return .next
  | .jump .always target => goto target
  | .jump condition target => do
    let v ← pop
    if condition.holds v then goto target else return .next
  | .nop => return .next

end Exec
end StackScript
