import StackScript.Number.Decimal

/-!
# Writing numbers

A finite number is written with the fewest digits that read back as it. For one digit, two digits and
so on, the exact expansion is cut to that many digits; the cut and its successor are the two decimals of
that length next to the value. The first length at which one of them reads back wins; of two that do,
the nearer is taken, and the larger where both are equally near.

The notation is positional whatever the size, a whole number has no point, and the sign of zero is kept.
-/

namespace StackScript
namespace Number

/-- Cuts `cut` digits off the exact expansion of `m`: of the two decimals of that length next to the
value, the nearer one that reads back as `m`, if either does. -/
def cut? (m : Nat) (exact : Decimal) (cut : Nat) : Option Decimal :=
  let scale := Nat.pow 10 cut
  let lower := Decimal.strip ⟨exact.digits / scale, exact.exponent + cut⟩
  let upper := Decimal.strip ⟨exact.digits / scale + 1, exact.exponent + cut⟩
  let candidates := if 2 * (exact.digits % scale) < scale then [lower, upper] else [upper, lower]
  candidates.find? fun d => d.magnitude = m

/-- The shortest decimal that reads back as the finite magnitude `m`. Seventeen digits always suffice;
the exact expansion stands last so that the search has an answer without that fact. -/
def shortest (m : Nat) : Decimal :=
  if m = 0 then ⟨0, 0⟩
  else
    let exact := Decimal.ofMagnitude m
    let length := (Nat.toDigits 10 exact.digits).length
    ((List.range' 1 17).findSome? fun n => cut? m exact (length - n)).getD exact

/-- The text of a number. -/
def text (x : Number) : List Char :=
  if x.isNaN then "NaN".toList
  else
    let unsigned := if x.isFinite then (shortest x.magnitude).text else "inf".toList
    if x.isNegative then '-' :: unsigned else unsigned

end Number
end StackScript
