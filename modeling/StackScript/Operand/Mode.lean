import StackScript.Operand.Basic

/-!
# Operand modes

A mode tells which shapes of operand stand in which slot. The operands of a written instruction have a
mode with at most one shape per slot, and each entry of an instruction set has the mode that it accepts,
which is an arbitrary set of shapes and may ask for a label instead.

Sets of shapes are also known by number: a label is bit 0, the shapes of the first slot are bits 4 to 6,
those of the second bits 8 to 10.
-/

namespace StackScript

/-- A set of shapes for one slot. -/
structure Shapes where
  immediate : Bool := false
  register : Bool := false
  direct : Bool := false
deriving DecidableEq, Repr

structure Mode where
  label : Bool := false
  first : Shapes := {}
  second : Shapes := {}
deriving DecidableEq, Repr

namespace Shapes

def union (a b : Shapes) : Shapes :=
  ⟨a.immediate || b.immediate, a.register || b.register, a.direct || b.direct⟩

/-- One shape of the set, if there is any; immediate goes before register, register before direct. -/
def text? (s : Shapes) : Option String :=
  if s.immediate then some "imm"
  else if s.register then some "reg"
  else if s.direct then some "dir"
  else none

/-- The shape of an operand; a slot without one has no shape. -/
def ofOperand : Option Operand → Shapes
  | none => {}
  | some (.immediate _) => { immediate := true }
  | some (.register _) => { register := true }
  | some (.direct _) => { direct := true }

def toNat (s : Shapes) : Nat :=
  s.immediate.toNat + 2 * s.register.toNat + 4 * s.direct.toNat

def ofNat (n : Nat) : Shapes := ⟨n.testBit 0, n.testBit 1, n.testBit 2⟩

end Shapes

namespace Mode

/-! ### The modes of single operands -/

def labelled : Mode := { label := true }
def imm1 : Mode := { first := { immediate := true } }
def reg1 : Mode := { first := { register := true } }
def dir1 : Mode := { first := { direct := true } }
def imm2 : Mode := { second := { immediate := true } }
def reg2 : Mode := { second := { register := true } }
def dir2 : Mode := { second := { direct := true } }

def union (a b : Mode) : Mode :=
  ⟨a.label || b.label, a.first.union b.first, a.second.union b.second⟩

instance : Union Mode := ⟨union⟩

/-! ### Modes as numbers -/

def toNat (m : Mode) : Nat := m.label.toNat + 16 * m.first.toNat + 256 * m.second.toNat

/-- The mode with a given number; bits without a meaning are ignored. -/
def ofNat (n : Nat) : Mode :=
  ⟨n.testBit 0, Shapes.ofNat (n >>> 4), Shapes.ofNat (n >>> 8)⟩

/-! ### Modes as text -/

def text (m : Mode) : String :=
  if m.label then "label"
  else
    match m.first.text?, m.second.text? with
    | some a, some b => a ++ ", " ++ b
    | some a, none => a
    | none, some b => "?, " ++ b
    | none, none => "none"

end Mode

/-- The mode of the operands of an instruction as it is written. -/
def Operands.mode (ops : Operands) : Mode :=
  { first := Shapes.ofOperand ops.first, second := Shapes.ofOperand ops.second }

end StackScript
