import StackScript.Instr.Basic
import StackScript.Operand.Mode
import StackScript.Operand.Parser

/-!
# Compile errors

Why a script is refused, and on which line. Compilation stops at the first error.
-/

namespace StackScript

/-- What is wrong with a line. -/
inductive Cause where
  /-- Text that belongs neither to an instruction nor to a comment. -/
  | unrecognized (text : String)
  | malformedImmediate (text : String)
  | unknownInstruction (mnemonic : String)
  /-- The mnemonic exists, but not with operands of this mode. -/
  | unsupportedOperands (mnemonic : String) (mode : Mode)
  | missingOperand
  | duplicateLabel (name : String)
  | undefinedLabel (name : String)
  /-- An entry of the instruction set has a mode that does not fit its kind. -/
  | shapeMismatch (kind : Kind)
deriving DecidableEq, Repr

def Cause.ofOperandError : OperandError → Cause
  | .malformedImmediate text => .malformedImmediate text
  | .missing => .missingOperand

structure CompileError where
  line : Nat
  cause : Cause
deriving DecidableEq, Repr

namespace CompileError

/-- The line to show with the error. A fault of the instruction set belongs to no line. -/
def line? (e : CompileError) : Option Nat :=
  match e.cause with
  | .shapeMismatch _ => none
  | _ => some e.line

def message (e : CompileError) : String :=
  let atLine := "line " ++ toString e.line ++ ": "
  match e.cause with
  | .unrecognized text => atLine ++ "unrecognized: " ++ text
  | .malformedImmediate text => atLine ++ "unable to parse immediate value: #" ++ text
  | .unknownInstruction mnemonic => atLine ++ "unknown instruction `" ++ mnemonic ++ "`"
  | .unsupportedOperands mnemonic mode =>
    atLine ++ "`" ++ mnemonic ++ "` does not accept operands (" ++ mode.text ++ ")"
  | .missingOperand => atLine ++ "expected an operand after `,`"
  | .duplicateLabel name => atLine ++ "label `" ++ name ++ "` is already declared"
  | .undefinedLabel name => atLine ++ "Undefined label reference: " ++ name
  | .shapeMismatch kind =>
    "compile error: internal error: operand shape does not fit " ++ kind.title

end CompileError
end StackScript
