import StackScript.Operand.Basic
import StackScript.Text.Scan

/-!
# Reading operands

An operand is tried as an immediate value, then as a register, then as a direct name. A hash commits to
an immediate value: what follows it has to be a boolean, a number or a string, and if it is none of them
the text is reported as malformed. In the other cases a text that is no operand is left to the caller.
-/

namespace StackScript

/-- Why a text cannot be read as operands. -/
inductive OperandError where
  /-- A hash is followed by `text`, which is no literal. -/
  | malformedImmediate (text : String)
  /-- A comma is not followed by an operand. -/
  | missing
deriving DecidableEq, Repr

def OperandError.message : OperandError → String
  | .malformedImmediate text => "unable to parse immediate value: #" ++ text
  | .missing => "expected an operand after `,`"

namespace Operand

/-- The part of a text that is reported as a malformed literal: up to a blank or a comma. -/
def malformed (cs : List Char) : List Char := cs.takeWhile fun c => !(Text.isBlank c || c == ',')

/-- Reads a literal, the text after a hash. An unclosed string is malformed to its end. -/
def parseLiteral (cs : List Char) : Except OperandError (Value × List Char) :=
  match Scan.boolean cs with
  | .ok s => .ok (.boolean s.value, s.rest)
  | .error _ =>
    match Scan.number cs with
    | .ok s => .ok (.number s.value, s.rest)
    | .error _ =>
      match Scan.string cs with
      | .ok s => .ok (.string (String.ofList s.value), s.rest)
      | .error .unterminated => .error (.malformedImmediate (String.ofList cs))
      | .error _ => .error (.malformedImmediate (String.ofList (malformed cs)))

/-- Reads the operand at the head of a text, if there is one. -/
def parse (cs : List Char) : Except OperandError (Option (Operand × List Char)) :=
  match Scan.hash cs with
  | .ok s => do
    let (value, rest) ← parseLiteral s.rest
    return some (.immediate value, rest)
  | .error _ =>
    match Scan.register cs with
    | .ok s => .ok (some (.register (String.ofList s.value), s.rest))
    | .error _ =>
      match Scan.identifier cs with
      | .ok s => .ok (some (.direct (String.ofList s.value), s.rest))
      | .error _ => .ok none

end Operand

/-- Reads the operands at the head of a text. Blanks may stand on both sides of the comma; where there
is no comma, the text after the first operand is handed back as it is. -/
def Operands.parse (cs : List Char) : Except OperandError (Operands × List Char) := do
  match ← Operand.parse cs with
  | none => return ({}, cs)
  | some (first, afterFirst) =>
    match Scan.comma (Text.skipBlanks afterFirst) with
    | .error _ => return ({ first := some first }, afterFirst)
    | .ok s =>
      match ← Operand.parse (Text.skipBlanks s.rest) with
      | some (second, rest) => return ({ first := some first, second := some second }, rest)
      | none => throw .missing

end StackScript
