import StackScript.Assembly.Statement
import StackScript.Operand.Reader

/-!
# Reading lines at a cursor

A line is read by the consumers from its beginning on, each from the cursor that the one before it has left. Reading
is never aborted, since every cursor on the way stands between two characters of the line, and it gives what
`Statement.parse` gives on the characters (`read?_eq`). So there is always a statement (`Statement.ofText`).
-/

namespace StackScript
namespace Statement

open Cursor Fallible

/-! ### Reading -/

/-- Nothing but blanks and a comment may stand behind the cursor. -/
def expectEnd? (c : Cursor) : Option (Except Cause Unit) := do
  let c ← skipBlanks c
  match ← (Cursor.comment c).run with
  | .ok _ => return .ok ()
  | .error _ =>
    match ← (Cursor.nonBlank c).run with
    | .ok s => return .error (.unrecognized (String.ofList s.value))
    | .error _ => return .ok ()

/-- Reads the operands of an instruction behind its mnemonic. -/
def readInstr? (set : InstrSet) (mnemonic : String) (c : Cursor) : Option (Except Cause Instr) := do
  if set.entries mnemonic = [] then return .error (.unknownInstruction mnemonic)
  match ← Operands.read? (← skipBlanks c) with
  | .error e => return .error (.ofOperandError e)
  | .ok (operands, rest) =>
    match ← expectEnd? rest with
    | .error e => return .error e
    | .ok () => return select set mnemonic operands

/-- Reads the text of a line behind its label. -/
def readBody? (set : InstrSet) (c : Cursor) : Option (Except Cause (Option Instr)) := do
  match ← (Cursor.mnemonic c).run with
  | .ok s => return some <$> (← readInstr? set (String.ofList s.value) s.rest)
  | .error _ => return (fun _ => none) <$> (← expectEnd? c)

/-- Reads a line. -/
def read? (set : InstrSet) (line : List Char) : Option Statement := do
  let c ← skipBlanks (start line)
  match ← (Cursor.label c).run with
  | .ok s => return ⟨some (String.ofList s.value), ← readBody? set (← skipBlanks s.rest)⟩
  | .error _ => return ⟨none, ← readBody? set (← skipBlanks c)⟩

/-! ### What is read is what is parsed -/

variable {set : InstrSet} {text cs : List Char}

theorem expectEnd?_before (h : cs <:+ text) : expectEnd? (before text cs) = some (expectEnd cs) := by
  have hblanks := (Text.skipBlanks_suffix cs).trans h
  simp only [expectEnd?, Option.bind_eq_bind, Option.bind_some, skipBlanks_before h, shows_comment.reads hblanks,
    shows_nonBlank.reads hblanks, expectEnd]
  cases Scan.comment (Text.skipBlanks cs) with
  | ok s => rfl
  | error e =>
    cases Scan.nonBlank (Text.skipBlanks cs) with
    | ok s => rfl
    | error e => rfl

theorem readInstr?_before (mnemonic : String) (h : cs <:+ text) :
    readInstr? set mnemonic (before text cs) = some (parseInstr set mnemonic cs) := by
  unfold readInstr? parseInstr
  by_cases hentries : set.entries mnemonic = []
  · rw [if_pos hentries, if_pos hentries]
    rfl
  · rw [if_neg hentries, if_neg hentries]
    have hblanks := (Text.skipBlanks_suffix cs).trans h
    simp only [Option.bind_eq_bind, Option.bind_some, skipBlanks_before h, Operands.read?_before hblanks]
    cases hoperands : Operands.parse (Text.skipBlanks cs) with
    | error e => rfl
    | ok r =>
      obtain ⟨operands, rest⟩ := r
      have hrest := (Grammar.suffix_of_parseOperands hoperands).trans hblanks
      simp only [Except.map, mapError_ok, behind, Option.bind_some, expectEnd?_before hrest, ok_bind]
      cases expectEnd rest with
      | error e => rfl
      | ok _ => rfl

theorem readBody?_before (h : cs <:+ text) : readBody? set (before text cs) = some (parseBody set cs) := by
  simp only [readBody?, Option.bind_eq_bind, shows_mnemonic.reads h, expectEnd?_before h, parseBody]
  cases hmnemonic : Scan.mnemonic cs with
  | ok s =>
    have hrest := (shows_mnemonic.suffix hmnemonic).trans h
    simp only [Except.map, Option.bind_some, moved_value, moved_rest, readInstr?_before _ hrest]
    rfl
  | error e =>
    cases expectEnd cs with
    | ok _ => rfl
    | error e => rfl

/-- Reading a line is not aborted and gives what the line says. -/
theorem read?_eq (set : InstrSet) (line : List Char) : read? set line = some (parse set line) := by
  have hstart : line <:+ line := List.suffix_rfl
  have hline := Text.skipBlanks_suffix line
  simp only [read?, Option.bind_eq_bind, Option.bind_some, ← before_self, skipBlanks_before hstart,
    shows_label.reads hline, parse]
  cases hlabel : Scan.label (Text.skipBlanks line) with
  | ok s =>
    have hrest := (shows_label.suffix hlabel).trans hline
    simp only [Except.map, Option.bind_some, moved_value, moved_rest, skipBlanks_before hrest,
      readBody?_before ((Text.skipBlanks_suffix s.rest).trans hrest)]
    rfl
  | error e =>
    simp only [Except.map, Option.bind_some, skipBlanks_before hline, Text.skipBlanks_skipBlanks,
      readBody?_before hline]
    rfl

/-- The statement that a line makes. -/
def ofText (set : InstrSet) (line : List Char) : Statement :=
  (read? set line).get (by rw [read?_eq]; rfl)

theorem ofText_eq (set : InstrSet) (line : List Char) : ofText set line = parse set line := by
  simp only [ofText, read?_eq, Option.get_some]

end Statement
end StackScript
