import StackScript.Value

/-!
# Operands

An operand is an immediate value, a register, or a *direct* name, which refers to a variable of the host
(or, in a jump, to a label). A place is an operand that can be written to: a register or a variable.
-/

namespace StackScript

inductive Operand where
  | immediate (value : Value)
  | register (name : String)
  | direct (name : String)
deriving DecidableEq, Repr

/-- Where a value can be stored. -/
inductive Place where
  | register (name : String)
  | direct (name : String)
deriving DecidableEq, Repr

namespace Operand

/-- The operand as a place, unless it is an immediate value. -/
def place? : Operand → Option Place
  | .immediate _ => none
  | .register name => some (.register name)
  | .direct name => some (.direct name)

def text : Operand → String
  | .immediate value => value.literal
  | .register name => "$" ++ name
  | .direct name => name

/-- Equality, with numbers compared by value. -/
def eq : Operand → Operand → Bool
  | .immediate v, .immediate w => v.eq w
  | a, b => decide (a = b)

end Operand

def Place.text : Place → String
  | .register name => "$" ++ name
  | .direct name => name

/-- The operands of an instruction as it is written: none, one or two. -/
structure Operands where
  first : Option Operand := none
  second : Option Operand := none
deriving DecidableEq, Repr

end StackScript
