import StackScript.Number.Reader
import StackScript.Text.Blank

/-!
# Scanners

A scanner reads one item at the head of a text. It succeeds with the item, the number of characters that
it took and the text after them, or it fails and takes nothing; nothing is ever read twice or lost.

Two primitives carry all others. `run` takes the *longest* run of characters of a class and then asks
whether its length is within bounds, so a run that is too long is refused, not cut short. `one` takes a
single character and does not look further.
-/

namespace StackScript
namespace Scan

/-- Why a scanner fails. -/
inductive Error where
  | tooFew (least found : Nat)
  | tooMany (most found : Nat)
  | notBoolean (text : String)
  | notNumber (text : String)
  | unterminated
deriving DecidableEq, Repr

def Error.message : Error → String
  | .tooFew least found =>
    "not enough data to consume: expected at least " ++ toString least ++ ", found " ++ toString found
  | .tooMany most found =>
    "too much data to consume: expected at most " ++ toString most ++ ", found " ++ toString found
  | .notBoolean text => "unable to recognize as boolean constant: " ++ text
  | .notNumber text => "unable to parse as a number: " ++ text
  | .unterminated => "unterminated string constant"

/-- What a successful scanner found. -/
structure Scanned (α : Type) where
  value : α
  /-- The number of characters taken. -/
  count : Nat
  rest : List Char
deriving DecidableEq, Repr

end Scan

/-- A scanner of items `α`. -/
abbrev Scanner (α : Type) := List Char → Except Scan.Error (Scan.Scanned α)

namespace Scan

/-! ### Primitives -/

/-- The longest run of characters in `p`, which has to have at least `least` and at most `most`
characters. -/
def run (p : Char → Bool) (least : Nat) (most : Option Nat) : Scanner (List Char) := fun cs =>
  let taken := cs.takeWhile p
  let n := taken.length
  if n < least then .error (.tooFew least n)
  else
    match most with
    | none => .ok ⟨taken, n, cs.dropWhile p⟩
    | some most => if most < n then .error (.tooMany most n) else .ok ⟨taken, n, cs.dropWhile p⟩

/-- A run of any length from `least` up. -/
def atLeast (least : Nat) (p : Char → Bool) : Scanner (List Char) := run p least none

/-- A single character in `p`, whatever follows it. -/
def one (p : Char → Bool) : Scanner Char
  | c :: cs => if p c then .ok ⟨c, 1, cs⟩ else .error (.tooFew 1 0)
  | [] => .error (.tooFew 1 0)

/-- The character `c`, which must not be repeated. -/
def lone (c : Char) : Scanner Unit := fun cs => do
  let s ← run (· == c) 1 (some 1) cs
  return ⟨(), s.count, s.rest⟩

/-! ### Words and separators -/

def isLetter (c : Char) : Bool := c.isAlpha

def isLetterOrDigit (c : Char) : Bool := c.isAlphanum

def isIdentifierStart (c : Char) : Bool := c.isAlpha || c == '_'

def isIdentifierBody (c : Char) : Bool := c.isAlphanum || c == '_'

/-- A word: a character in `start` and the run of characters in `body` after it. -/
def word (start body : Char → Bool) : Scanner (List Char) := fun cs => do
  let head ← one start cs
  let tail ← atLeast 0 body head.rest
  return ⟨head.value :: tail.value, head.count + tail.count, tail.rest⟩

/-- A run of characters that are not blank. -/
def nonBlank : Scanner (List Char) := atLeast 1 (!Text.isBlank ·)

/-- Two slashes or more, and all that follows them. -/
def comment : Scanner (List Char) := fun cs => do
  let slashes ← atLeast 2 (· == '/') cs
  let body ← atLeast 0 (fun _ => true) slashes.rest
  return ⟨slashes.value ++ body.value, slashes.count + body.count, body.rest⟩

/-- A letter or underscore, then letters, digits and underscores. -/
def identifier : Scanner (List Char) := word isIdentifierStart isIdentifierBody

/-- A letter, then letters and digits. -/
def mnemonic : Scanner (List Char) := word isLetter isLetterOrDigit

/-- The declaration of a label: an identifier with a colon behind it. The item is the name. -/
def label : Scanner (List Char) := fun cs => do
  let name ← identifier cs
  let colon ← lone ':' name.rest
  return ⟨name.value, name.count + colon.count, colon.rest⟩

/-- A register: an identifier with a dollar sign before it. The item is the name. -/
def register : Scanner (List Char) := fun cs => do
  let sigil ← lone '$' cs
  let name ← identifier sigil.rest
  return ⟨name.value, sigil.count + name.count, name.rest⟩

/-- The sign that introduces an immediate value. -/
def hash : Scanner Unit := lone '#'

/-- The sign between two operands. -/
def comma : Scanner Unit := lone ','

/-! ### Literals -/

/-- `true` or `false` in any case, as a whole run of letters. -/
def boolean : Scanner Bool := fun cs => do
  let letters ← atLeast 0 isLetter cs
  let lower := letters.value.map Char.toLower
  if lower = "true".toList then return ⟨true, letters.count, letters.rest⟩
  else if lower = "false".toList then return ⟨false, letters.count, letters.rest⟩
  else throw (.notBoolean (String.ofList letters.value))

/-- An optional minus sign, digits, and an optional point with further digits. -/
def number : Scanner Number := fun cs => do
  let sign ← run (· == '-') 0 (some 1) cs
  let whole ← atLeast 1 Char.isDigit sign.rest
  let point ← run (· == '.') 0 (some 1) whole.rest
  let fraction ← atLeast 0 Char.isDigit point.rest
  let text := sign.value ++ whole.value ++ point.value ++ fraction.value
  match Number.parse? text with
  | some x => return ⟨x, sign.count + whole.count + point.count + fraction.count, fraction.rest⟩
  | none => throw (.notNumber (String.ofList text))

/-- The mark around a string. -/
def quote : Char := '\x22'

/-- A run of characters between two quotes, which has no quote in it. The item is the run. -/
def string : Scanner (List Char) := fun cs => do
  let opening ← one (· == quote) cs
  let body ← atLeast 0 (· != quote) opening.rest
  match one (· == quote) body.rest with
  | .ok closing => return ⟨body.value, opening.count + body.count + closing.count, closing.rest⟩
  | .error _ => throw .unterminated

end Scan
end StackScript
