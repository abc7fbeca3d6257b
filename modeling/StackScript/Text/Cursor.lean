import StackScript.Text.Position
import StackScript.Text.Scan

/-!
# Cursors

A cursor is a place in a text: the text and a position in it, in bytes. A consumer reads one item from a cursor on. It
succeeds with the item, the number of characters that it took and the cursor behind them, or it fails, and the caller
goes on with the cursor that it had. Characters and bytes are counted side by side, and texts are cut out by
positions, either from what remains or between two cursors. A cut at a position that is not between two characters
aborts the program, so a consumer may have no outcome at all.

There is a consumer for each scanner, and it reads the same way.
-/

namespace StackScript

/-- A place in a text. -/
structure Cursor where
  text : List Char
  /-- The position, in bytes. -/
  pos : Nat
deriving DecidableEq, Repr

namespace Cursor

/-- The place before a text. -/
def start (text : List Char) : Cursor := ⟨text, 0⟩

/-- The text from the cursor on. -/
def remaining? (c : Cursor) : Option (List Char) := Text.sliceFrom? c.pos c.text

def atEnd (c : Cursor) : Bool := decide (Text.byteSize c.text ≤ c.pos)

/-- The text between an earlier cursor and this one. -/
def since? (c earlier : Cursor) : Option (List Char) := Text.slice? earlier.pos c.pos c.text

/-- What a successful consumer found. -/
structure Scanned (α : Type) where
  value : α
  /-- The number of characters taken. -/
  count : Nat
  rest : Cursor
deriving DecidableEq, Repr

/-- What comes of reading, unless the program is aborted. -/
abbrev Reading (α : Type) := ExceptT Scan.Error Option α

end Cursor

/-- A consumer of items `α`. -/
abbrev Consumer (α : Type) := Cursor → Cursor.Reading (Cursor.Scanned α)

namespace Cursor

/-! ### Primitives -/

/-- Adds to `count` and `len` the number of the characters in `p` that head a text, and their bytes. -/
def measure (p : Char → Bool) : List Char → Nat → Nat → Nat × Nat
  | [], count, len => (count, len)
  | c :: cs, count, len => if p c then measure p cs (count + 1) (len + c.utf8Size) else (count, len)

/-- Cuts `len` bytes off what remains, which are `count` characters. -/
def take (c : Cursor) (remaining : List Char) (count len : Nat) : Reading (Scanned (List Char)) := do
  let value ← Text.sliceTo? len remaining
  return ⟨value, count, { c with pos := c.pos + len }⟩

/-- The longest run of characters in `p`, which has to have at least `least` and at most `most`
characters. -/
def run (p : Char → Bool) (least : Nat) (most : Option Nat) : Consumer (List Char) := fun c => do
  let remaining ← c.remaining?
  let (count, len) := measure p remaining 0 0
  if count < least then throw (.tooFew least count)
  else
    match most with
    | none => take c remaining count len
    | some most => if most < count then throw (.tooMany most count) else take c remaining count len

/-- A run of any length from `least` up. -/
def atLeast (least : Nat) (p : Char → Bool) : Consumer (List Char) := run p least none

/-- A single character in `p`, whatever follows it. -/
def one (p : Char → Bool) : Consumer (List Char) := fun c => do
  let remaining ← c.remaining?
  match remaining.head?.filter p with
  | some ch => take c remaining 1 ch.utf8Size
  | none => throw (.tooFew 1 0)

/-- The character `ch`, which must not be repeated. -/
def lone (ch : Char) : Consumer Unit := fun c => do
  let s ← run (· == ch) 1 (some 1) c
  return ⟨(), s.count, s.rest⟩

/-- The place behind the blanks. -/
def skipBlanks (c : Cursor) : Option Cursor := do
  match ← (atLeast 0 Text.isBlank c).run with
  | .ok s => return s.rest
  | .error _ => return c

/-! ### Words and separators -/

/-- A word: a character in `start` and the run of characters in `body` after it. -/
def word (start body : Char → Bool) : Consumer (List Char) := fun c => do
  let head ← one start c
  let tail ← atLeast 0 body head.rest
  let value ← tail.rest.since? c
  return ⟨value, head.count + tail.count, tail.rest⟩

/-- A run of characters that are not blank. -/
def nonBlank : Consumer (List Char) := atLeast 1 (!Text.isBlank ·)

/-- Two slashes or more, and all that follows them. -/
def comment : Consumer (List Char) := fun c => do
  let slashes ← atLeast 2 (· == '/') c
  let body ← atLeast 0 (fun _ => true) slashes.rest
  let value ← body.rest.since? c
  return ⟨value, slashes.count + body.count, body.rest⟩

def identifier : Consumer (List Char) := word Scan.isIdentifierStart Scan.isIdentifierBody

def mnemonic : Consumer (List Char) := word Scan.isLetter Scan.isLetterOrDigit

/-- The declaration of a label: an identifier with a colon behind it. The item is the name. -/
def label : Consumer (List Char) := fun c => do
  let name ← identifier c
  let colon ← lone ':' name.rest
  return ⟨name.value, name.count + colon.count, colon.rest⟩

/-- A register: an identifier with a dollar sign before it. The item is the name. -/
def register : Consumer (List Char) := fun c => do
  let sigil ← lone '$' c
  let name ← identifier sigil.rest
  return ⟨name.value, sigil.count + name.count, name.rest⟩

/-- The sign that introduces an immediate value. -/
def hash : Consumer Unit := lone '#'

/-- The sign between two operands. -/
def comma : Consumer Unit := lone ','

/-! ### Literals -/

/-- `true` or `false` in any case, as a whole run of letters. -/
def boolean : Consumer Bool := fun c => do
  let letters ← atLeast 0 Scan.isLetter c
  let lower := letters.value.map Char.toLower
  if lower = "true".toList then return ⟨true, letters.count, letters.rest⟩
  else if lower = "false".toList then return ⟨false, letters.count, letters.rest⟩
  else throw (.notBoolean (String.ofList letters.value))

/-- An optional minus sign, digits, and an optional point with further digits. -/
def number : Consumer Number := fun c => do
  let sign ← run (· == '-') 0 (some 1) c
  let whole ← atLeast 1 Char.isDigit sign.rest
  let point ← run (· == '.') 0 (some 1) whole.rest
  let fraction ← atLeast 0 Char.isDigit point.rest
  let text ← fraction.rest.since? c
  match Number.parse? text with
  | some x => return ⟨x, sign.count + whole.count + point.count + fraction.count, fraction.rest⟩
  | none => throw (.notNumber (String.ofList text))

/-- A run of characters between two quotes, which has no quote in it. The item is the run. -/
def string : Consumer (List Char) := fun c => do
  let opening ← one (· == Scan.quote) c
  let body ← atLeast 0 (· != Scan.quote) opening.rest
  let closing ← (one (· == Scan.quote) body.rest).adapt fun _ => Scan.Error.unterminated
  return ⟨body.value, opening.count + body.count + closing.count, closing.rest⟩

end Cursor
end StackScript
