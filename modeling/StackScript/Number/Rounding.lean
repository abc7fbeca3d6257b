import StackScript.Number.Basic

/-!
# Rounding to the nearest number

Every finite magnitude is a whole multiple of the least positive number, so the exact value of a
number is a natural number of such units (`units`). `nearest` goes the other way: it takes
a quotient of naturals, counted in units, to the magnitude of the number nearest to it, a tie going to
the number whose last bit is even. On the value of a finite number `nearest` gives that number back.
-/

namespace StackScript
namespace Number

/-- The least positive number, the unit, is `2 ^ (-unitPlaces)`. -/
def unitPlaces : Nat := 1074

/-- The exact value of a finite magnitude, in units. -/
def units (m : Nat) : Nat :=
  if m < Nat.pow 2 52 then m else (Nat.pow 2 52 + m % Nat.pow 2 52) * Nat.pow 2 (m / Nat.pow 2 52 - 1)

/-- The natural number nearest to `num / den`; of two equally near the even one. -/
def roundHalfEven (num den : Nat) : Nat :=
  let quotient := num / den
  let twice := 2 * (num % den)
  if den < twice ∨ (twice = den ∧ quotient % 2 = 1) then quotient + 1 else quotient

/-- The magnitude nearest to `num / den` units.

The quotient is scaled by a power of two to the 53 bits of a significand, or left as it is where it has
fewer, and rounded there. As the leading bit of a significand falls on the lowest bit of the exponent,
one sum makes the magnitude of a normal number, of a subnormal one, and of a significand that rounding
has carried to the next power of two. What exceeds the finite range becomes infinite. -/
def nearest (num den : Nat) : Nat :=
  let scale := (num / den).log2 - 52
  min infinite (scale * Nat.pow 2 52 + roundHalfEven num (den * Nat.pow 2 scale))

end Number
end StackScript
