import StackScript.Machine.Fault

/-!
# The data stack

A stack of values that knows its depth. Its capacity is not part of it but an argument of the two operations
that it concerns: `withCapacity?`, which sets the memory for all values aside, and `push`.
-/

namespace StackScript

structure Stack where
  /-- The values, topmost first. -/
  items : List Value
  depth : Nat
  depth_eq : depth = items.length
deriving DecidableEq

namespace Stack

def empty : Stack := ⟨[], 0, rfl⟩

instance : Inhabited Stack := ⟨empty⟩

@[ext] theorem ext {s t : Stack} (h : s.items = t.items) : s = t := by
  cases s; cases t; simp_all

/-- The bytes that a value takes in memory. -/
def valueBytes : Nat := 24

/-- The bytes that can be set aside at once. -/
def maxBytes : Nat := 9223372036854775807

/-- The memory for so many values can be set aside. -/
def Fits (capacity : Nat) : Prop := capacity * valueBytes ≤ maxBytes

instance (capacity : Nat) : Decidable (Fits capacity) :=
  inferInstanceAs (Decidable (capacity * valueBytes ≤ maxBytes))

/-- The empty stack with memory for `capacity` values. There is none if that is too much to be set aside. -/
def withCapacity? (capacity : Nat) : Option Stack := if Fits capacity then some empty else none

/-- Puts a value on a stack that has fewer than `capacity`. -/
def push (capacity : Nat) (v : Value) (s : Stack) : Except Fault Stack :=
  if s.depth < capacity then .ok ⟨v :: s.items, s.depth + 1, by simp [s.depth_eq]⟩
  else .error (.stackOverflow capacity)

/-- Takes the topmost value off. -/
def pop (s : Stack) : Except Fault (Value × Stack) :=
  match h : s.items with
  | v :: rest => .ok (v, ⟨rest, s.depth - 1, by simp [s.depth_eq, h]⟩)
  | [] => .error .stackUnderflow

/-- The topmost value, which stays. -/
def top (s : Stack) : Except Fault Value :=
  match s.items with
  | v :: _ => .ok v
  | [] => .error .stackUnderflow

/-- Puts a value in the place of the topmost one; an empty stack stays empty. -/
def replaceTop (v : Value) (s : Stack) : Stack :=
  match h : s.items with
  | _ :: rest => ⟨v :: rest, s.depth, by simp [s.depth_eq, h]⟩
  | [] => s

end Stack
end StackScript
