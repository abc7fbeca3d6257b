import StackScript.Number.Decimal

/-!
# Reading numbers

`Number.parse?` reads a whole text as a number: an optional sign, then either a decimal numeral
(digits with an optional point, at least one digit in all, and an optional exponent) or one of the words
`inf`, `infinity` and `nan` in any case. A numeral stands for the number nearest to it.
-/

namespace StackScript
namespace Number

/-- A leading sign, and the text after it. -/
def splitSign : List Char → Bool × List Char
  | '-' :: cs => (true, cs)
  | '+' :: cs => (false, cs)
  | cs => (false, cs)

/-- The magnitude that a word stands for. -/
def word? (cs : List Char) : Option Nat :=
  let word := cs.map Char.toLower
  if word = "inf".toList ∨ word = "infinity".toList then some infinite
  else if word = "nan".toList then some quietNaN
  else none

/-- The exponent part of a numeral, which may be missing: `e` or `E`, a sign, digits. -/
def exponent? : List Char → Option Int
  | [] => some 0
  | c :: cs =>
    let (negative, digits) := splitSign cs
    if (c = 'e' ∨ c = 'E') ∧ digits ≠ [] ∧ digits.all Char.isDigit then
      let n : Int := Decimal.ofDigits digits
      some (if negative then -n else n)
    else none

/-- An exponent brought within `400` of a numeral of `length` digits. Beyond, the numeral is infinite or
zero whatever its digits are, so the number read does not change. -/
def clampExponent (length : Nat) (e : Int) : Int :=
  max (-(400 + (length : Int))) (min (400 + (length : Int)) e)

/-- An unsigned decimal numeral. -/
def decimal? (cs : List Char) : Option Decimal :=
  let whole := cs.takeWhile Char.isDigit
  let rest := cs.dropWhile Char.isDigit
  let (fraction, tail) :=
    match rest with
    | '.' :: r => (r.takeWhile Char.isDigit, r.dropWhile Char.isDigit)
    | _ => ([], rest)
  let digits := whole ++ fraction
  if digits = [] then none
  else (exponent? tail).map fun e =>
    ⟨Decimal.ofDigits digits, clampExponent digits.length e - (fraction.length : Int)⟩

/-- Reads a text as a number. -/
def parse? (cs : List Char) : Option Number :=
  let (negative, body) := splitSign cs
  match word? body with
  | some m => some (ofMagnitude negative m)
  | none => (decimal? body).map fun d => ofMagnitude negative d.magnitude

end Number
end StackScript
