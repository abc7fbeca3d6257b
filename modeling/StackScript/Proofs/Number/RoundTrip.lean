import Mathlib.Algebra.Group.Nat.Defs
import StackScript.Number.Printer
import StackScript.Proofs.Grammar.Numeral

/-!
# Numbers read back from their text

The text of a finite number is a numeral that has the number as its value (`exists_numeral_text_eq`), so
every number but a NaN is read back from its text (`parse?_text`).
Three facts make up the first statement: rounding gives back what is a number already (`nearest_units`), whatever decimal
the search for a short one finds reads back by the way it was found (`magnitude_shortest`), and positional
notation keeps the value of a decimal (`Decimal.exists_numeral`).
-/

namespace StackScript

namespace Number

/-! ### Rounding a number -/

theorem roundHalfEven_mul (n : Nat) {k : Nat} (hk : 0 < k) : roundHalfEven (n * k) k = n := by
  unfold roundHalfEven
  rw [Nat.mul_div_cancel n hk, Nat.mul_mod_left, if_neg (by omega)]

/-- A significand with its leading bit, times a power of two. -/
theorem log2_significand {f k : Nat} (hf : f < 2 ^ 52) : ((2 ^ 52 + f) * 2 ^ k).log2 = 52 + k := by
  have hpos : 0 < 2 ^ k := Nat.two_pow_pos k
  rw [Nat.log2_eq_iff (Nat.ne_of_gt (Nat.mul_pos (by omega) hpos))]
  constructor
  · rw [Nat.pow_add]
    exact Nat.mul_le_mul_right _ (by omega)
  · rw [show 52 + k + 1 = 53 + k by omega, Nat.pow_add]
    exact Nat.mul_lt_mul_of_pos_right (by omega) hpos

theorem nearest_of_lt {m k : Nat} (hm : m < 2 ^ 52) (hk : 0 < k) : nearest (m * k) k = min infinite m := by
  have hscale : m.log2 - 52 = 0 := by
    rcases Nat.eq_zero_or_pos m with rfl | hpos
    · rfl
    · have hlog : m.log2 < 52 := (Nat.log2_lt (Nat.ne_of_gt hpos)).mpr hm
      omega
  unfold nearest
  simp only [Nat.pow_eq]
  rw [Nat.mul_div_cancel _ hk, hscale, Nat.pow_zero, Nat.mul_one, Nat.zero_mul, Nat.zero_add,
    roundHalfEven_mul m hk]

theorem nearest_significand {f s k : Nat} (hf : f < 2 ^ 52) (hk : 0 < k) :
    nearest ((2 ^ 52 + f) * 2 ^ s * k) k = min infinite (s * 2 ^ 52 + (2 ^ 52 + f)) := by
  unfold nearest
  simp only [Nat.pow_eq]
  rw [Nat.mul_div_cancel _ hk, log2_significand hf, Nat.add_sub_cancel_left, Nat.mul_assoc,
    Nat.mul_comm (2 ^ s) k, roundHalfEven_mul _ (Nat.mul_pos hk (Nat.two_pow_pos s))]

/-- A quotient that is a finite number is rounded to it. -/
theorem nearest_units {m k : Nat} (hm : m < infinite) (hk : 0 < k) : nearest (units m * k) k = m := by
  have hmin : min infinite m = m := Nat.min_eq_right (Nat.le_of_lt hm)
  unfold units
  simp only [Nat.pow_eq]
  split
  · next hlt => rw [nearest_of_lt hlt hk, hmin]
  · next hlt =>
    rw [nearest_significand (Nat.mod_lt m (Nat.two_pow_pos 52)) hk]
    have hsum : (m / 2 ^ 52 - 1) * 2 ^ 52 + (2 ^ 52 + m % 2 ^ 52) = m := by omega
    rw [hsum, hmin]

end Number

/-! ### Decimals that read back -/

namespace Decimal

theorem magnitude_places (digits places : Nat) :
    magnitude ⟨digits, -(places : Int)⟩ =
      Number.nearest (digits * Nat.pow 2 Number.unitPlaces) (Nat.pow 10 places) := by
  unfold magnitude
  simp only [Int.toNat_neg_natCast, Int.neg_neg, Int.toNat_natCast, Nat.pow_eq, Nat.pow_zero, Nat.mul_one]

/-- Zeros at the end may be written or counted. -/
theorem magnitude_whole (digits n : Nat) :
    magnitude ⟨digits * Nat.pow 10 n, -((0 : Nat) : Int)⟩ = magnitude ⟨digits, (n : Int)⟩ := by
  rw [magnitude_places]
  unfold magnitude
  simp only [Int.toNat_natCast, Int.toNat_neg_natCast]

theorem magnitude_ofMagnitude {m : Nat} (hm : m < Number.infinite) : (ofMagnitude m).magnitude = m := by
  rw [ofMagnitude, magnitude_places]
  generalize Number.unitPlaces = n
  have hten : Nat.pow 5 n * Nat.pow 2 n = Nat.pow 10 n := (Nat.mul_pow 5 2 n).symm
  rw [Nat.mul_assoc, hten]
  exact Number.nearest_units hm (Nat.pow_pos (by decide))

end Decimal

namespace Number

theorem magnitude_of_cut? {m cut : Nat} {exact d : Decimal} (hcut : cut? m exact cut = some d) :
    d.magnitude = m := by
  unfold cut? at hcut
  have hreads := List.find?_some hcut
  exact of_decide_eq_true hreads

theorem magnitude_shortest {m : Nat} (hm : m < infinite) : (shortest m).magnitude = m := by
  unfold shortest
  split
  · next hzero =>
    rw [hzero]
    have hplaces := Decimal.magnitude_places 0 0
    rw [Nat.zero_mul] at hplaces
    exact hplaces.trans (@nearest_of_lt 0 1 (by decide) (by decide))
  · simp only
    rcases hfind : (List.range' 1 17).findSome? fun n =>
        cut? m (Decimal.ofMagnitude m) ((Nat.toDigits 10 (Decimal.ofMagnitude m).digits).length - n) with _ | d
    · exact Decimal.magnitude_ofMagnitude hm
    · obtain ⟨n, -, hcut⟩ := List.exists_of_findSome?_eq_some hfind
      exact magnitude_of_cut? hcut

end Number

/-! ### Positional notation -/

namespace Decimal

theorem ofDigits_padLeft (width : Nat) (cs : List Char) : ofDigits (padLeft width cs) = ofDigits cs := by
  unfold padLeft ofDigits
  rw [List.foldl_append]
  congr 1
  induction width - cs.length with
  | zero => rfl
  | succ n ih =>
    rw [List.replicate_succ, List.foldl_cons]
    exact ih

theorem ofDigits_toDigits (n : Nat) : ofDigits (Nat.toDigits 10 n) = n :=
  Nat.ofDigitChars_toDigits (by decide) (by decide)

theorem toDigits_ne_nil (n : Nat) : Nat.toDigits 10 n ≠ [] := by
  rw [Nat.toDigits_eq_if (by decide)]
  split <;> simp

theorem isDigit_of_mem_padLeft {width n : Nat} {c : Char} (hc : c ∈ padLeft width (Nat.toDigits 10 n)) :
    c.isDigit = true := by
  rcases List.mem_append.mp hc with hzero | hdigit
  · rw [List.eq_of_mem_replicate hzero]
    rfl
  · exact Nat.isDigit_of_mem_toDigits (by decide) (by decide) hdigit

theorem le_length_padLeft (width : Nat) (cs : List Char) : width ≤ (padLeft width cs).length := by
  rw [padLeft, List.length_append, List.length_replicate]
  omega

/-- The text of a decimal, with or without a sign, is a numeral with the same value. -/
theorem exists_numeral (d : Decimal) (negative : Bool) :
    ∃ n : Numeral, n.text = (if negative then '-' :: d.text else d.text) ∧
      n.value = .ofMagnitude negative d.magnitude := by
  obtain ⟨digits, exponent⟩ := d
  unfold text
  by_cases hexp : 0 ≤ exponent
  · rw [if_pos hexp]
    obtain ⟨k, rfl⟩ := Int.eq_ofNat_of_zero_le hexp
    have hdigit : ∀ c ∈ Nat.toDigits 10 (digits * Nat.pow 10 k), c.isDigit = true :=
      fun c hc => Nat.isDigit_of_mem_toDigits (by decide) (by decide) hc
    refine ⟨⟨negative, Nat.toDigits 10 (digits * Nat.pow 10 k), none, toDigits_ne_nil _, hdigit,
      by simp⟩, ?_, ?_⟩
    · cases negative <;> simp [Numeral.text, Numeral.sign, Numeral.point, Numeral.places]
    · show Number.ofMagnitude negative (magnitude ⟨ofDigits (Nat.toDigits 10 _ ++ []), -((0 : Nat) : Int)⟩) = _
      rw [List.append_nil, ofDigits_toDigits, magnitude_whole]
  · rw [if_neg hexp]
    obtain ⟨k, rfl⟩ : ∃ k : Nat, exponent = -(k : Int) := by
      have hneg : exponent < 0 := Int.not_le.mp hexp
      exact ⟨(-exponent).toNat, by omega⟩
    simp only [Int.neg_neg, Int.toNat_natCast]
    -- The digits are filled up until one stands before the point; what they are does not matter below.
    have hlength := le_length_padLeft (k + 1) (Nat.toDigits 10 digits)
    have hdigit : ∀ c ∈ padLeft (k + 1) (Nat.toDigits 10 digits), c.isDigit = true :=
      fun c => isDigit_of_mem_padLeft
    have hvalue : ofDigits (padLeft (k + 1) (Nat.toDigits 10 digits)) = digits := by
      rw [ofDigits_padLeft, ofDigits_toDigits]
    generalize padLeft (k + 1) (Nat.toDigits 10 digits) = padded at hlength hdigit hvalue ⊢
    have hwhole : padded.take (padded.length - k) ≠ [] := by
      intro hnil
      have hzero := congrArg List.length hnil
      rw [List.length_take, List.length_nil] at hzero
      omega
    refine ⟨⟨negative, padded.take (padded.length - k), some (padded.drop (padded.length - k)), hwhole,
      fun c hc => hdigit c (List.mem_of_mem_take hc), fun c hc => hdigit c (List.mem_of_mem_drop hc)⟩, ?_, ?_⟩
    · cases negative <;> simp [Numeral.text, Numeral.sign, Numeral.point, Numeral.places]
    · show Number.ofMagnitude negative (magnitude ⟨ofDigits (padded.take _ ++ padded.drop _),
        -((padded.drop (padded.length - k)).length : Int)⟩) = _
      rw [List.take_append_drop, hvalue, List.length_drop, Nat.sub_sub_self (by omega)]

end Decimal

/-! ### Texts of numbers -/

theorem Numeral.mem_text {n : Numeral} {c : Char} (hc : c ∈ n.text) : c.isDigit = true ∨ c = '-' ∨ c = '.' := by
  simp only [text, List.mem_append] at hc
  rcases hc with ((hsign | hwhole) | hpoint) | hplaces
  · unfold sign at hsign
    split at hsign
    · exact .inr (.inl (List.mem_singleton.mp hsign))
    · cases hsign
  · exact .inl (n.whole_digits c hwhole)
  · rcases n.point_cases with hp | ⟨hp, -⟩
    · rw [hp] at hpoint
      exact .inr (.inr (List.mem_singleton.mp hpoint))
    · rw [hp] at hpoint
      cases hpoint
  · exact .inl (n.places_digits c hplaces)

namespace Number

theorem ofMagnitude_magnitude (x : Number) : ofMagnitude x.isNegative x.magnitude = x := by
  have hlt : x.bits.toNat < 2 ^ 64 := x.bits.toNat_lt
  have hbits : (if x.isNegative then Nat.pow 2 63 + x.magnitude else x.magnitude) = x.bits.toNat := by
    unfold isNegative magnitude
    simp only [Nat.pow_eq, decide_eq_true_eq]
    split <;> omega
  unfold ofMagnitude
  rw [hbits, UInt64.ofNat_toNat]

/-- The text of a finite number is a numeral with that number as its value. -/
theorem exists_numeral_text_eq {x : Number} (hx : x.isFinite = true) :
    ∃ n : Numeral, n.text = x.text ∧ n.value = x := by
  have hlt : x.magnitude < infinite := of_decide_eq_true hx
  have hnan : ¬x.isNaN = true := fun hnan => Nat.lt_asymm hlt (of_decide_eq_true hnan)
  obtain ⟨n, htext, hvalue⟩ := (shortest x.magnitude).exists_numeral x.isNegative
  refine ⟨n, ?_, ?_⟩
  · unfold Number.text
    rw [htext, if_neg hnan, if_pos hx]
  · rw [hvalue, magnitude_shortest hlt, ofMagnitude_magnitude]

/-- Every number but a NaN is read back from its text. -/
theorem parse?_text {x : Number} (hx : x.isNaN = false) : parse? x.text = some x := by
  by_cases hfinite : x.isFinite = true
  · obtain ⟨n, htext, hvalue⟩ := exists_numeral_text_eq hfinite
    rw [← htext, n.parse?_text, hvalue]
  · have hmagnitude : x.magnitude = infinite := by
      have hle : ¬infinite < x.magnitude := of_decide_eq_false hx
      have hge : ¬x.magnitude < infinite := fun hlt => hfinite (decide_eq_true hlt)
      omega
    have hx' := ofMagnitude_magnitude x
    rw [hmagnitude] at hx'
    unfold Number.text
    rw [hx, if_neg (by decide), if_neg hfinite]
    rw [← hx']
    cases x.isNegative <;> rfl

/-- What the text of a number is made of. -/
theorem mem_text {x : Number} {c : Char} (hc : c ∈ x.text) : c.isAlphanum = true ∨ c = '-' ∨ c = '.' := by
  by_cases hfinite : x.isFinite = true
  · obtain ⟨n, htext, -⟩ := exists_numeral_text_eq hfinite
    rw [← htext] at hc
    rcases n.mem_text hc with hdigit | hmark
    · exact .inl (Text.isAlphanum_iff.mpr (.inr hdigit))
    · exact .inr hmark
  · have hword : x.text = "NaN".toList ∨ x.text = "inf".toList ∨ x.text = '-' :: "inf".toList := by
      unfold Number.text
      cases x.isNaN <;> cases x.isNegative <;> simp [hfinite]
    rcases hword with hword | hword | hword
    · rw [hword] at hc
      exact .inl (List.all_eq_true.mp (show "NaN".toList.all Char.isAlphanum = true by decide) c hc)
    · rw [hword] at hc
      exact .inl (List.all_eq_true.mp (show "inf".toList.all Char.isAlphanum = true by decide) c hc)
    · rw [hword] at hc
      rcases List.mem_cons.mp hc with hsign | hc
      · exact .inr (.inl hsign)
      · exact .inl (List.all_eq_true.mp (show "inf".toList.all Char.isAlphanum = true by decide) c hc)

theorem magnitude_ofMagnitude (negative : Bool) {m : Nat} (hm : m ≤ infinite) :
    (ofMagnitude negative m).magnitude = m := by
  have hlt : m < 2 ^ 63 := Nat.lt_of_le_of_lt hm (by decide)
  unfold ofMagnitude magnitude
  simp only [Nat.pow_eq]
  cases negative with
  | true => rw [if_pos rfl, UInt64.toNat_ofNat_of_lt' (by show _ < 2 ^ 64; omega)]; omega
  | false => rw [if_neg (by decide), UInt64.toNat_ofNat_of_lt' (by show _ < 2 ^ 64; omega)]; omega

end Number

/-- No numeral stands for a NaN. -/
theorem Numeral.isNaN_value (n : Numeral) : n.value.isNaN = false := by
  have hle : ∀ d : Decimal, d.magnitude ≤ Number.infinite := fun d => Nat.min_le_left _ _
  unfold value Number.isNaN
  rw [Number.magnitude_ofMagnitude _ (hle _)]
  exact decide_eq_false (Nat.not_lt.mpr (hle _))

end StackScript
