import StackScript.Number.Rounding

/-!
# Decimal numerals

A `Decimal` is a natural number of powers of ten, the common ground of numerals that are read and
numerals that are written. `Decimal.magnitude` rounds it to binary64; `Decimal.ofMagnitude` is the exact
expansion of a binary64 value, which always exists because a unit is a power of one half, so a power of
five over one of ten.
-/

namespace StackScript

/-- The number `digits * 10 ^ exponent`. -/
structure Decimal where
  digits : Nat
  exponent : Int
deriving DecidableEq, Repr

namespace Decimal

/-! ### Between decimal and binary -/

/-- The magnitude nearest to a decimal. -/
def magnitude (d : Decimal) : Nat :=
  Number.nearest (d.digits * Nat.pow 10 d.exponent.toNat * Nat.pow 2 Number.unitPlaces)
    (Nat.pow 10 (-d.exponent).toNat)

/-- The exact value of a finite magnitude. -/
def ofMagnitude (m : Nat) : Decimal :=
  ⟨Number.units m * Nat.pow 5 Number.unitPlaces, -(Number.unitPlaces : Int)⟩

/-- Trailing zeros of the digits, moved into the exponent. -/
def strip (d : Decimal) : Decimal :=
  if d.digits ≠ 0 ∧ d.digits % 10 = 0 then strip ⟨d.digits / 10, d.exponent + 1⟩ else d
termination_by d.digits
decreasing_by omega

/-! ### Digits as text -/

/-- The value of a run of decimal digits. -/
def ofDigits (cs : List Char) : Nat :=
  cs.foldl (fun n c => 10 * n + (c.toNat - '0'.toNat)) 0

/-- `cs` filled up on the left with zeros to at least `width` characters. -/
def padLeft (width : Nat) (cs : List Char) : List Char :=
  List.replicate (width - cs.length) '0' ++ cs

/-- Positional notation: all digits are written out, and a point stands only before a fraction. -/
def text (d : Decimal) : List Char :=
  if 0 ≤ d.exponent then
    Nat.toDigits 10 (d.digits * Nat.pow 10 d.exponent.toNat)
  else
    let places := (-d.exponent).toNat
    let padded := padLeft (places + 1) (Nat.toDigits 10 d.digits)
    padded.take (padded.length - places) ++ '.' :: padded.drop (padded.length - places)

end Decimal
end StackScript
