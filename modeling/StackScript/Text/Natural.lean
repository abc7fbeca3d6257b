/-!
# Machine naturals

Counts that a user gives (a stack capacity, a number of steps) are naturals below `2 ^ 64`, written as
decimal digits after an optional plus sign. The first character that goes wrong decides the error.
-/

namespace StackScript
namespace Text

/-- Why a text is no machine natural. -/
inductive NaturalError where
  | empty
  | badDigit
  | tooLarge
deriving DecidableEq, Repr

def NaturalError.message : NaturalError → String
  | .empty => "cannot parse integer from empty string"
  | .badDigit => "invalid digit found in string"
  | .tooLarge => "number too large to fit in target type"

/-- One more digit at the end of a natural. -/
def appendDigit (n : Nat) (c : Char) : Except NaturalError Nat :=
  if c.isDigit then
    let next := 10 * n + (c.toNat - '0'.toNat)
    if next < UInt64.size then .ok next else .error .tooLarge
  else .error .badDigit

/-- Reads a whole text as a machine natural. -/
def natural (cs : List Char) : Except NaturalError Nat :=
  match cs with
  | [] => .error .empty
  | ['+'] => .error .badDigit
  | '+' :: digits => digits.foldlM appendDigit 0
  | digits => digits.foldlM appendDigit 0

end Text
end StackScript
