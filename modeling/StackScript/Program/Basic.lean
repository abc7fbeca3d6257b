import StackScript.Instr.Basic

/-!
# Programs

A program is its code and, beside it, the script line that each instruction came from. A program that was
compiled has a line for every instruction; one that was built or decoded may have fewer or more.
-/

namespace StackScript

structure Program where
  code : Array Instr
  lines : Array Nat
deriving DecidableEq, Repr

namespace Program

instance : Inhabited Program := ⟨#[], #[]⟩

/-- The number of instructions. -/
def size (p : Program) : Nat := p.code.size

def isEmpty (p : Program) : Bool := p.code.isEmpty

/-- The script line of an instruction, if it is recorded. -/
def line? (p : Program) (index : Nat) : Option Nat := p.lines[index]?

/-- The script line of an instruction, or zero. -/
def line (p : Program) (index : Nat) : Nat := (p.line? index).getD 0

/-- Equality, with numbers compared by value. -/
def eq (p q : Program) : Bool :=
  p.code.size == q.code.size &&
    (p.code.toList.zip q.code.toList).all (fun (i, j) => i.eq j) && p.lines == q.lines

end Program
end StackScript
