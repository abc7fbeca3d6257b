import StackScript.Operand.Basic

/-!
# Instructions

The instructions of the stack machine. `Kind` names an instruction without its operands; `Instr` is the
instruction itself. A jump carries the label it was written with and, once that is known, the index of
the instruction to go to.
-/

namespace StackScript

/-! ### Families of operations -/

/-- Operations on the two topmost numbers. -/
inductive Arith where
  | add
  | sub
  | mul
  | div
deriving DecidableEq, Repr

/-- Operations that select one of the two topmost values. -/
inductive Logic where
  | and
  | or
deriving DecidableEq, Repr

/-- Ways to count a register. -/
inductive Delta where
  | inc
  | dec
deriving DecidableEq, Repr

/-- When a jump is taken: always, or if the popped value is false, or if it is true. -/
inductive Condition where
  | always
  | falsy
  | truthy
deriving DecidableEq, Repr

/-- Instructions without their operands. -/
inductive Kind where
  | push
  | pop
  | move
  | compare
  | arith (op : Arith)
  | negate
  | adjust (delta : Delta)
  | logic (op : Logic)
  | jump (condition : Condition)
  | nop
deriving DecidableEq, Repr

/-- The name of a kind of instruction in scripts. -/
def Kind.mnemonic : Kind → String
  | .push => "push"
  | .pop => "pop"
  | .move => "mov"
  | .compare => "cmp"
  | .arith .add => "add"
  | .arith .sub => "sub"
  | .arith .mul => "mul"
  | .arith .div => "div"
  | .negate => "neg"
  | .adjust .inc => "inc"
  | .adjust .dec => "dec"
  | .logic .and => "and"
  | .logic .or => "or"
  | .jump .always => "jmp"
  | .jump .falsy => "je"
  | .jump .truthy => "jne"
  | .nop => "nop"

/-- The name of a kind of instruction in reports on an instruction set. -/
def Kind.title : Kind → String
  | .push => "Push"
  | .pop => "Pop"
  | .move => "Move"
  | .compare => "Compare"
  | .arith .add => "Add"
  | .arith .sub => "Sub"
  | .arith .mul => "Mul"
  | .arith .div => "Div"
  | .negate => "Negate"
  | .adjust .inc => "Increment"
  | .adjust .dec => "Decrement"
  | .logic .and => "And"
  | .logic .or => "Or"
  | .jump .always => "Jump"
  | .jump .falsy => "JumpIfFalse"
  | .jump .truthy => "JumpIfTrue"
  | .nop => "NoOp"

/-! ### Instructions -/

/-- The goal of a jump. The position is an index into a program, at most one past its end if the program
was compiled, and unknown until the label is resolved. -/
structure Target where
  label : String
  position : Option Nat := none
deriving DecidableEq, Repr

inductive Instr where
  | push (src : Operand)
  | pop (dst : Place)
  | move (dst : Place) (src : Operand)
  | compare (lhs rhs : Operand)
  | arith (op : Arith)
  | negate
  | adjust (delta : Delta) (register : String)
  | logic (op : Logic)
  | jump (condition : Condition) (target : Target)
  | nop
deriving DecidableEq, Repr

namespace Instr

instance : Inhabited Instr := ⟨.nop⟩

def kind : Instr → Kind
  | .push _ => .push
  | .pop _ => .pop
  | .move _ _ => .move
  | .compare _ _ => .compare
  | .arith op => .arith op
  | .negate => .negate
  | .adjust delta _ => .adjust delta
  | .logic op => .logic op
  | .jump condition _ => .jump condition
  | .nop => .nop

def mnemonic (i : Instr) : String := i.kind.mnemonic

def target? : Instr → Option Target
  | .jump _ target => some target
  | _ => none

/-- The instruction with another position in its target, if it has a target. -/
def withPosition (i : Instr) (position : Option Nat) : Instr :=
  match i with
  | .jump condition target => .jump condition { target with position }
  | i => i

/-- Equality, with numbers compared by value. -/
def eq : Instr → Instr → Bool
  | .push a, .push b => a.eq b
  | .move d a, .move e b => decide (d = e) && a.eq b
  | .compare a b, .compare c d => a.eq c && b.eq d
  | i, j => decide (i = j)

end Instr

/-! ### Instructions as text -/

/-- An index, with at least four digits. -/
def indexText (n : Nat) : String := String.ofList (Decimal.padLeft 4 (Nat.toDigits 10 n))

def Target.text (t : Target) : String :=
  t.label ++
    match t.position with
    | some position => " (@" ++ indexText position ++ ")"
    | none => " (unresolved)"

/-- An instruction as it is written in a script, with the position of a jump behind it. -/
def Instr.text (i : Instr) : String :=
  match i with
  | .push src => i.mnemonic ++ " " ++ src.text
  | .pop dst => i.mnemonic ++ " " ++ dst.text
  | .move dst src => i.mnemonic ++ " " ++ dst.text ++ ", " ++ src.text
  | .compare lhs rhs => i.mnemonic ++ " " ++ lhs.text ++ ", " ++ rhs.text
  | .adjust _ register => i.mnemonic ++ " $" ++ register
  | .jump _ target => i.mnemonic ++ " " ++ target.text
  | .arith _ | .negate | .logic _ | .nop => i.mnemonic

end StackScript
