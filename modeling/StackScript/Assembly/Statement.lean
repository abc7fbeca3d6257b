import StackScript.Assembly.Error
import StackScript.Instr.Set

/-!
# Statements

What one line of a script says, taken by itself: it may declare a label, and it may give an instruction;
a comment may follow. Reading the label and reading the rest are independent, so a line with a label and
a faulty instruction still declares the label.
-/

namespace StackScript

structure Statement where
  /-- The label declared. -/
  label : Option String
  /-- The instruction given, if any, or what is wrong with the text after the label. -/
  instr : Except Cause (Option Instr)

namespace Statement

/-- Nothing but blanks and a comment may stand here. -/
def expectEnd (cs : List Char) : Except Cause Unit :=
  let cs := Text.skipBlanks cs
  match Scan.comment cs with
  | .ok _ => .ok ()
  | .error _ =>
    match Scan.nonBlank cs with
    | .ok s => .error (.unrecognized (String.ofList s.value))
    | .error _ => .ok ()

/-- The instruction that a mnemonic gives with some operands. -/
def select (set : InstrSet) (mnemonic : String) (operands : Operands) : Except Cause Instr :=
  match set.resolve mnemonic operands.mode with
  | .error .unknownMnemonic => throw (.unknownInstruction mnemonic)
  | .error .unsupportedMode => throw (.unsupportedOperands mnemonic operands.mode)
  | .ok entry =>
    match entry.kind.instantiate? operands with
    | some i => return i
    | none => throw (.shapeMismatch entry.kind)

/-- Reads the operands of an instruction, the text after its mnemonic. Text that is left over is reported
before the operands are looked up, so that the report names the text. -/
def parseInstr (set : InstrSet) (mnemonic : String) (cs : List Char) : Except Cause Instr := do
  if set.entries mnemonic = [] then throw (.unknownInstruction mnemonic)
  let (operands, rest) ← (Operands.parse (Text.skipBlanks cs)).mapError Cause.ofOperandError
  expectEnd rest
  select set mnemonic operands

/-- Reads the text of a line after its label. -/
def parseBody (set : InstrSet) (cs : List Char) : Except Cause (Option Instr) :=
  match Scan.mnemonic cs with
  | .ok s => some <$> parseInstr set (String.ofList s.value) s.rest
  | .error _ => do
    expectEnd cs
    return none

/-- Reads a line. -/
def parse (set : InstrSet) (cs : List Char) : Statement :=
  let cs := Text.skipBlanks cs
  match Scan.label cs with
  | .ok s => ⟨some (String.ofList s.value), parseBody set (Text.skipBlanks s.rest)⟩
  | .error _ => ⟨none, parseBody set cs⟩

end Statement
end StackScript
