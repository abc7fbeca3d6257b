import StackScript.Proofs.Grammar.Operand
import StackScript.Proofs.Text.View

/-!
# Reading operands at a cursor

Operands are read by the consumers, from one cursor to the next. At a cursor before an end of a text this gives what
`Operand.parse` and `Operands.parse` give on this end.
-/

namespace StackScript

open Cursor Fallible

namespace Operand

/-- Reads a literal behind a hash. -/
def readLiteral? (c : Cursor) : Option (Except OperandError (Value × Cursor)) := do
  match ← (Cursor.boolean c).run with
  | .ok s => return .ok (.boolean s.value, s.rest)
  | .error _ =>
    match ← (Cursor.number c).run with
    | .ok s => return .ok (.number s.value, s.rest)
    | .error _ =>
      match ← (Cursor.string c).run with
      | .ok s => return .ok (.string (String.ofList s.value), s.rest)
      | .error .unterminated => return .error (.malformedImmediate (String.ofList (← c.remaining?)))
      | .error _ => return .error (.malformedImmediate (String.ofList (malformed (← c.remaining?))))

/-- Reads the operand behind a cursor, if there is one. -/
def read? (c : Cursor) : Option (Except OperandError (Option (Operand × Cursor))) := do
  match ← (Cursor.hash c).run with
  | .ok s =>
    match ← readLiteral? s.rest with
    | .ok (value, rest) => return .ok (some (.immediate value, rest))
    | .error e => return .error e
  | .error _ =>
    match ← (Cursor.register c).run with
    | .ok s => return .ok (some (.register (String.ofList s.value), s.rest))
    | .error _ =>
      match ← (Cursor.identifier c).run with
      | .ok s => return .ok (some (.direct (String.ofList s.value), s.rest))
      | .error _ => return .ok none

end Operand

/-- Reads the operands behind a cursor. -/
def Operands.read? (c : Cursor) : Option (Except OperandError (Operands × Cursor)) := do
  match ← Operand.read? c with
  | .error e => return .error e
  | .ok none => return .ok ({}, c)
  | .ok (some (first, afterFirst)) =>
    match ← (Cursor.comma (← skipBlanks afterFirst)).run with
    | .error _ => return .ok ({ first := some first }, afterFirst)
    | .ok s =>
      match ← Operand.read? (← skipBlanks s.rest) with
      | .error e => return .error e
      | .ok (some (second, rest)) => return .ok ({ first := some first, second := some second }, rest)
      | .ok none => return .error .missing

/-! ### What is read is what is parsed -/

variable {α : Type} {text cs : List Char}

/-- The cursor in place of the text that is left. -/
def Cursor.behind (text : List Char) (r : α × List Char) : α × Cursor := (r.1, before text r.2)

theorem Operand.readLiteral?_before (h : cs <:+ text) :
    readLiteral? (before text cs) = some ((parseLiteral cs).map (behind text)) := by
  rw [readLiteral?, shows_boolean.reads h, shows_number.reads h, shows_string.reads h, remaining?_before h,
    parseLiteral]
  cases Scan.boolean cs with
  | ok s => rfl
  | error _ =>
    cases Scan.number cs with
    | ok s => rfl
    | error _ =>
      cases Scan.string cs with
      | ok s => rfl
      | error e =>
        cases e with
        | unterminated => rfl
        | _ => rfl

theorem Operand.read?_before (h : cs <:+ text) :
    read? (before text cs) = some ((parse cs).map (Option.map (behind text))) := by
  rw [read?, shows_hash.reads h, shows_register.reads h, shows_identifier.reads h, parse]
  cases hhash : Scan.hash cs with
  | ok s =>
    have hrest := (shows_hash.suffix hhash).trans h
    simp only [Except.map, Option.bind_eq_bind, Option.bind_some, moved_rest, readLiteral?_before hrest]
    cases parseLiteral s.rest with
    | ok r => rfl
    | error e => rfl
  | error _ =>
    cases Scan.register cs with
    | ok s => rfl
    | error _ =>
      cases Scan.identifier cs with
      | ok s => rfl
      | error _ => rfl

theorem Operands.read?_before (h : cs <:+ text) :
    read? (before text cs) = some ((parse cs).map (behind text)) := by
  rw [read?, Operand.read?_before h, parse]
  cases hfirst : Operand.parse cs with
  | error e => rfl
  | ok first? =>
    cases first? with
    | none => rfl
    | some r =>
      obtain ⟨first, afterFirst⟩ := r
      have hafter := (Grammar.suffix_of_parseOperand hfirst).trans h
      have hblanks := (Text.skipBlanks_suffix afterFirst).trans hafter
      simp only [Except.map, Option.map, behind, Option.bind_eq_bind, Option.bind_some, ok_bind,
        skipBlanks_before hafter, shows_comma.reads hblanks]
      cases hcomma : Scan.comma (Text.skipBlanks afterFirst) with
      | error _ => rfl
      | ok s =>
        have hrest := (shows_comma.suffix hcomma).trans hblanks
        simp only [Option.bind_some, moved_rest, skipBlanks_before hrest,
          Operand.read?_before ((Text.skipBlanks_suffix s.rest).trans hrest)]
        cases Operand.parse (Text.skipBlanks s.rest) with
        | error e => rfl
        | ok second? =>
          cases second? with
          | none => rfl
          | some r => rfl

end StackScript
