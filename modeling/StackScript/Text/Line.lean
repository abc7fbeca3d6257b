/-!
# Lines

A script is read line by line. A line ends at a carriage return, at a line feed, or at the two in this
order, which count as one break. Lines are numbered from one, and every physical line has its number;
only those that hold some character are handed on.
-/

namespace StackScript

/-- A line of a script, without its break, and its number. -/
structure Line where
  number : Nat
  text : List Char
deriving DecidableEq, Repr

namespace Line

def isBreak (c : Char) : Bool := c == '\r' || c == '\n'

/-- What follows the line break that heads a text. -/
def afterBreak : List Char → List Char
  | '\r' :: '\n' :: cs => cs
  | _ :: cs => cs
  | [] => []

/-! ### Length facts for the well-founded recursion -/

theorem length_afterBreak_le (cs : List Char) : (afterBreak cs).length ≤ cs.length - 1 := by
  fun_cases afterBreak cs <;> simp

theorem length_afterBreak_dropWhile_lt (p : Char → Bool) (c : Char) (cs : List Char) :
    (afterBreak ((c :: cs).dropWhile p)).length < (c :: cs).length := by
  have h := (List.dropWhile_suffix (l := c :: cs) p).length_le
  have := length_afterBreak_le ((c :: cs).dropWhile p)
  simp only [List.length_cons] at *
  omega

/-! ### The scanner -/

/-- The lines of `cs`, the first of which has the number `number`; empty lines are left out. -/
def scanFrom (number : Nat) (cs : List Char) : List Line :=
  match cs with
  | [] => []
  | c :: cs =>
    let text := (c :: cs).takeWhile (!isBreak ·)
    let rest := afterBreak ((c :: cs).dropWhile (!isBreak ·))
    if text = [] then scanFrom (number + 1) rest
    else ⟨number, text⟩ :: scanFrom (number + 1) rest
termination_by cs.length
decreasing_by all_goals exact length_afterBreak_dropWhile_lt _ _ _

/-- The non-empty lines of a text, in order. -/
def scan (cs : List Char) : List Line := scanFrom 1 cs

end Line
end StackScript
