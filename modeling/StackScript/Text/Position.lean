/-!
# Positions in a text

A position in a text is a number of bytes. A text can be cut at a position only if the position is not behind the end and
lies between two characters, each of which takes up to four bytes. So cutting a text may give nothing.

Main statements: a text can be cut at the size of every initial part of it (`sliceFrom?_append`, `slice?_append`).
-/

namespace StackScript
namespace Text

/-- The bytes that a text takes. -/
def byteSize : List Char → Nat
  | [] => 0
  | c :: cs => c.utf8Size + byteSize cs

/-- The text from a position on. -/
def sliceFrom? : Nat → List Char → Option (List Char)
  | 0, cs => some cs
  | _ + 1, [] => none
  | n + 1, c :: cs => if c.utf8Size ≤ n + 1 then sliceFrom? (n + 1 - c.utf8Size) cs else none

/-- The text up to a position. -/
def sliceTo? : Nat → List Char → Option (List Char)
  | 0, _ => some []
  | _ + 1, [] => none
  | n + 1, c :: cs => if c.utf8Size ≤ n + 1 then (sliceTo? (n + 1 - c.utf8Size) cs).map (c :: ·) else none

/-- The text between two positions, the second of which must not lie before the first. -/
def slice? (start stop : Nat) (cs : List Char) : Option (List Char) :=
  if start ≤ stop then (sliceFrom? start cs).bind (sliceTo? (stop - start)) else none

/-! ### Sizes -/

@[simp] theorem byteSize_append (w cs : List Char) : byteSize (w ++ cs) = byteSize w + byteSize cs := by
  induction w with
  | nil => exact (Nat.zero_add _).symm
  | cons c w ih => rw [List.cons_append, byteSize, ih, byteSize, Nat.add_assoc]

theorem byteSize_eq_zero_iff {cs : List Char} : byteSize cs = 0 ↔ cs = [] := by
  cases cs with
  | nil => exact iff_of_true rfl rfl
  | cons c cs =>
    have hpos := c.utf8Size_pos
    simp only [byteSize, reduceCtorEq, iff_false]
    omega

/-- The size of a text as a string. -/
theorem utf8ByteSize_ofList (cs : List Char) : (String.ofList cs).utf8ByteSize = byteSize cs := by
  induction cs with
  | nil => rfl
  | cons c cs ih =>
    have hsplit : String.ofList (c :: cs) = String.singleton c ++ String.ofList cs := by
      rw [String.singleton_eq_ofList, ← String.ofList_append]
      rfl
    rw [hsplit, String.utf8ByteSize_append, String.utf8ByteSize_singleton, ih, byteSize]

theorem byteSize_le_of_suffix {cs text : List Char} (h : cs <:+ text) : byteSize cs ≤ byteSize text := by
  obtain ⟨front, rfl⟩ := h
  rw [byteSize_append]
  exact Nat.le_add_left _ _

/-! ### Cuts between characters -/

/-- What is cut off behind an initial part. -/
theorem sliceFrom?_append (w cs : List Char) : sliceFrom? (byteSize w) (w ++ cs) = some cs := by
  induction w with
  | nil => rw [List.nil_append, byteSize, sliceFrom?]
  | cons c w ih =>
    have hpos := c.utf8Size_pos
    obtain ⟨n, hn⟩ := Nat.exists_eq_add_one_of_ne_zero (show c.utf8Size + byteSize w ≠ 0 by omega)
    rw [byteSize, List.cons_append, hn, sliceFrom?, if_pos (by omega), ← hn, Nat.add_sub_cancel_left]
    exact ih

theorem sliceTo?_append (w cs : List Char) : sliceTo? (byteSize w) (w ++ cs) = some w := by
  induction w with
  | nil => rw [List.nil_append, byteSize, sliceTo?]
  | cons c w ih =>
    have hpos := c.utf8Size_pos
    obtain ⟨n, hn⟩ := Nat.exists_eq_add_one_of_ne_zero (show c.utf8Size + byteSize w ≠ 0 by omega)
    rw [byteSize, List.cons_append, hn, sliceTo?, if_pos (by omega), ← hn, Nat.add_sub_cancel_left, ih]
    rfl

/-- What is cut out between two initial parts. -/
theorem slice?_append (front w cs : List Char) :
    slice? (byteSize front) (byteSize front + byteSize w) (front ++ (w ++ cs)) = some w := by
  rw [slice?, if_pos (Nat.le_add_right _ _), sliceFrom?_append, Nat.add_sub_cancel_left]
  exact sliceTo?_append w cs

example : slice? 2 3 "éab".toList = some ['a'] ∧ slice? 1 3 "éab".toList = none := by decide

end Text
end StackScript
