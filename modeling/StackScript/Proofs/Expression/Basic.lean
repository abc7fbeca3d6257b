import StackScript.Instr.Basic
import StackScript.Proofs.Grammar.Numeral
import StackScript.Text.Line

/-!
# Expressions

Expressions over literals, with the operations that a script has for the values on the stack. An
expression has a value, unless an operation in it meets a value of the wrong type (`Expr.eval`), and
it has a script: its parts in postfix order, each on a line of its own (`Expr.script`).
-/

namespace StackScript

/-! ### Literals -/

/-- A literal as it is written in a script. -/
inductive Literal where
  | number (n : Numeral)
  | boolean (b : Bool)
  | string (cs : List Char) (no_quote : Scan.quote ∉ cs) (no_break : ∀ c ∈ cs, Line.isBreak c = false)

namespace Literal

def text : Literal → List Char
  | .number n => n.text
  | .boolean b => if b then "true".toList else "false".toList
  | .string cs _ _ => Scan.quote :: (cs ++ [Scan.quote])

def value : Literal → Value
  | .number n => .number n.value
  | .boolean b => .boolean b
  | .string cs _ _ => .string (String.ofList cs)

end Literal

/-! ### Expressions -/

/-- An operation on two values. -/
inductive BinaryOp where
  | arith (op : Arith)
  | logic (op : Logic)

def BinaryOp.instr : BinaryOp → Instr
  | .arith op => .arith op
  | .logic op => .logic op

inductive Expr where
  | literal (l : Literal)
  | neg (e : Expr)
  | binary (op : BinaryOp) (lhs rhs : Expr)

/-! ### Evaluation -/

/-- The operation `mnemonic` found a value of another type where it needs a number. -/
structure Mismatch where
  mnemonic : String
  got : ValueType

/-- The number that an operation needs a value to be. -/
def Value.asNumber (mnemonic : String) (v : Value) : Except Mismatch Number :=
  match v with
  | .number x => .ok x
  | v => .error ⟨mnemonic, v.type⟩

def Value.negated (v : Value) : Except Mismatch Value := do
  let x ← v.asNumber "neg"
  return .number x.neg

/-- What `and` and `or` take for true: a number unless it is zero, of either sign, and a string unless it is
empty. -/
def Value.holds : Value → Bool
  | .undefined => false
  | .number x => decide (x.bits ≠ 0 ∧ x.bits ≠ 0x8000000000000000)
  | .boolean b => b
  | .string s => decide (s ≠ "")

/-- What an operation makes of two values. Of two numbers the right one is checked first. Division
subtracts. -/
def BinaryOp.combine (op : BinaryOp) (a b : Value) : Except Mismatch Value :=
  match op with
  | .arith op => do
    let y ← b.asNumber (Kind.arith op).mnemonic
    let x ← a.asNumber (Kind.arith op).mnemonic
    match op with
    | .add => return .number (x.add y)
    | .sub => return .number (x.sub y)
    | .mul => return .number (x.mul y)
    | .div => return .number (x.sub y)
  | .logic .and => return if a.holds then b else a
  | .logic .or => return if a.holds then a else b

namespace Expr

/-- The value of an expression. The left side is evaluated before the right side, and both always
are. -/
def eval : Expr → Except Mismatch Value
  | .literal l => .ok l.value
  | .neg e => do
    let v ← e.eval
    v.negated
  | .binary op lhs rhs => do
    let a ← lhs.eval
    let b ← rhs.eval
    op.combine a b

/-- The room on the stack that an expression needs. -/
def need : Expr → Nat
  | .literal _ => 1
  | .neg e => e.need
  | .binary _ lhs rhs => max lhs.need (1 + rhs.need)

/-! ### Scripts -/

/-- The lines of an expression in postfix order. -/
def lines : Expr → List (List Char)
  | .literal l => ["push #".toList ++ l.text]
  | .neg e => e.lines ++ ["neg".toList]
  | .binary op lhs rhs => lhs.lines ++ rhs.lines ++ [op.instr.mnemonic.toList]

/-- The script that computes an expression. -/
def script (e : Expr) : String := String.ofList (e.lines.flatMap (· ++ ['\n']))

/-- The instructions of an expression in postfix order. -/
def code : Expr → List Instr
  | .literal l => [.push (.immediate l.value)]
  | .neg e => e.code ++ [.negate]
  | .binary op lhs rhs => lhs.code ++ rhs.code ++ [op.instr]

end Expr
end StackScript
