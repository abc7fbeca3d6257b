/-!
# Numbers

A number is an IEEE 754 binary64 datum, kept as its 64 bits. Holding the bits rather than a value
keeps apart what a stored program must keep apart (the two zeros, a NaN and its payload), and it
makes equality of numbers plain equality. The comparison of numeric values, in which a NaN equals
nothing and the zeros are equal, is the separate test `Number.eq`.

The lower 63 bits of a number are its *magnitude*. Magnitudes are ordered as the values they stand
for: finite ones lie below `infinite`, NaNs above it.
-/

namespace StackScript

/-- A binary64 number, as its bits: sign, eleven bits of exponent, 52 bits of fraction. -/
structure Number where
  bits : UInt64
deriving DecidableEq, Repr

namespace Number

/-! ### Sign and magnitude -/

/-- The magnitude of an infinity: every exponent bit set, no fraction bit. -/
def infinite : Nat := 2047 * Nat.pow 2 52

/-- The magnitude of the NaN that arithmetic and numerals produce. -/
def quietNaN : Nat := infinite + Nat.pow 2 51

/-- The number with a given sign and magnitude. -/
def ofMagnitude (negative : Bool) (m : Nat) : Number :=
  ⟨UInt64.ofNat (if negative then Nat.pow 2 63 + m else m)⟩

/-- All bits but the sign. -/
def magnitude (x : Number) : Nat := x.bits.toNat % Nat.pow 2 63

/-- Whether the sign bit is set. -/
def isNegative (x : Number) : Bool := decide (Nat.pow 2 63 ≤ x.bits.toNat)

def isNaN (x : Number) : Bool := decide (infinite < x.magnitude)

def isFinite (x : Number) : Bool := decide (x.magnitude < infinite)

/-- Zero of either sign. -/
def isZero (x : Number) : Bool := decide (x.magnitude = 0)

/-- Equality of values: a NaN equals nothing, and the two zeros are equal. -/
def eq (x y : Number) : Bool :=
  !x.isNaN && !y.isNaN && (decide (x = y) || (x.isZero && y.isZero))

/-! ### Arithmetic

Rounding to nearest, as the standard prescribes. -/

def toFloat (x : Number) : Float := Float.ofBits x.bits

def ofFloat (x : Float) : Number := ⟨x.toBits⟩

def one : Number := ofMagnitude false (1023 * Nat.pow 2 52)

def minusOne : Number := ofMagnitude true (1023 * Nat.pow 2 52)

def add (x y : Number) : Number := ofFloat (x.toFloat + y.toFloat)

def sub (x y : Number) : Number := ofFloat (x.toFloat - y.toFloat)

def mul (x y : Number) : Number := ofFloat (x.toFloat * y.toFloat)

/-- Negation turns the sign bit over and leaves the rest, also of a NaN. -/
def neg (x : Number) : Number := ⟨x.bits ^^^ 0x8000000000000000⟩

end Number
end StackScript
