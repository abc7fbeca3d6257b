/-!
# Blanks

The characters that separate words: the 25 code points with the Unicode property White_Space.
-/

namespace StackScript
namespace Text

/-- The Unicode property White_Space. -/
def isBlank (c : Char) : Bool :=
  let n := c.toNat
  (0x09 ≤ n && n ≤ 0x0D) || n == 0x20 || n == 0x85 || n == 0xA0 || n == 0x1680 ||
    (0x2000 ≤ n && n ≤ 0x200A) || n == 0x2028 || n == 0x2029 || n == 0x202F || n == 0x205F ||
    n == 0x3000

/-- Drops the leading blanks. -/
def skipBlanks (cs : List Char) : List Char := cs.dropWhile isBlank

/-- Drops the blanks at both ends. -/
def trim (cs : List Char) : List Char := (skipBlanks (skipBlanks cs).reverse).reverse

end Text
end StackScript
