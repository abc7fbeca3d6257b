import StackScript.Proofs.Text.Run

/-!
# Numerals

A numeral of a script is an optional minus sign, digits, and an optional point that further digits
may follow. Its value is the number nearest to the decimal that the digits spell. Main statement:
the reader of numbers takes every numeral, and to that value (`parse?_text`).
-/

namespace StackScript

/-- A numeral, `-?[0-9]+(\.[0-9]*)?`. -/
structure Numeral where
  negative : Bool
  whole : List Char
  /-- The digits after the point, where there is a point. -/
  fraction : Option (List Char)
  whole_ne_nil : whole ≠ []
  whole_digits : ∀ c ∈ whole, c.isDigit = true
  fraction_digits : ∀ c ∈ fraction.getD [], c.isDigit = true

namespace Numeral

def sign (n : Numeral) : List Char := if n.negative then ['-'] else []

def point (n : Numeral) : List Char := if n.fraction.isSome then ['.'] else []

/-- The digits after the point. -/
def places (n : Numeral) : List Char := n.fraction.getD []

def text (n : Numeral) : List Char := n.sign ++ n.whole ++ n.point ++ n.places

/-- The number nearest to the decimal that the digits spell. -/
def value (n : Numeral) : Number :=
  .ofMagnitude n.negative (Decimal.magnitude ⟨Decimal.ofDigits (n.whole ++ n.places), -(n.places.length : Int)⟩)

/-! ### The parts of a numeral -/

/-- The digits before the point begin with a digit. -/
theorem exists_whole_cons (n : Numeral) : ∃ d ds, n.whole = d :: ds ∧ d.isDigit = true := by
  obtain ⟨d, ds, hd⟩ := List.exists_cons_of_ne_nil n.whole_ne_nil
  exact ⟨d, ds, hd, n.whole_digits d (by simp [hd])⟩

/-- A numeral begins with its sign or with a digit. -/
theorem exists_text_cons (n : Numeral) : ∃ c cs, n.text = c :: cs ∧ (c = '-' ∨ c.isDigit = true) := by
  obtain ⟨d, ds, hd, hdigit⟩ := n.exists_whole_cons
  cases hn : n.negative with
  | true => exact ⟨'-', n.whole ++ n.point ++ n.places, by simp [text, sign, hn], .inl rfl⟩
  | false => exact ⟨d, ds ++ n.point ++ n.places, by simp [text, sign, hn, hd], .inr hdigit⟩

theorem places_digits (n : Numeral) : ∀ c ∈ n.places, c.isDigit = true := n.fraction_digits

/-- A numeral has a point, or it ends with its first digits. -/
theorem point_cases (n : Numeral) : n.point = ['.'] ∨ n.point = [] ∧ n.places = [] := by
  cases hf : n.fraction with
  | none => exact .inr (by simp [point, places, hf])
  | some ds => exact .inl (by simp [point, hf])

/-- Pieces of the right shapes make up a numeral. -/
theorem exists_of_pieces {sign whole point places : List Char} (hsign : sign = ['-'] ∨ sign = [])
    (hne : whole ≠ []) (hwhole : ∀ c ∈ whole, c.isDigit = true)
    (hpoint : point = ['.'] ∨ point = [] ∧ places = []) (hplaces : ∀ c ∈ places, c.isDigit = true) :
    ∃ n : Numeral, n.sign = sign ∧ n.whole = whole ∧ n.point = point ∧ n.places = places := by
  obtain ⟨negative, hnegative⟩ : ∃ b : Bool, (if b then ['-'] else []) = sign := by
    rcases hsign with rfl | rfl
    · exact ⟨true, rfl⟩
    · exact ⟨false, rfl⟩
  rcases hpoint with rfl | ⟨rfl, rfl⟩
  · exact ⟨⟨negative, whole, some places, hne, hwhole, hplaces⟩, hnegative, rfl, rfl, rfl⟩
  · exact ⟨⟨negative, whole, none, hne, hwhole, hplaces⟩, hnegative, rfl, rfl, rfl⟩

/-- What follows the first digits does not extend them, unless what follows the numeral does. -/
theorem stops_point (n : Numeral) {rest : List Char} (h : Text.Stops Char.isDigit rest) :
    Text.Stops Char.isDigit (n.point ++ n.places ++ rest) := by
  rcases n.point_cases with hp | ⟨hp, hf⟩
  · rw [hp]; exact Text.stops_cons.mpr (by decide)
  · rw [hp, hf]; exact h

/-! ### The reader of numbers on a numeral -/

theorem splitSign_text (n : Numeral) :
    Number.splitSign n.text = (n.negative, n.whole ++ (n.point ++ n.places)) := by
  obtain ⟨d, ds, hd, hdigit⟩ := n.exists_whole_cons
  cases hn : n.negative with
  | true => simp [text, sign, hn, Number.splitSign]
  | false =>
    have hminus : d ≠ '-' := by rintro rfl; exact absurd hdigit (by decide)
    have hplus : d ≠ '+' := by rintro rfl; exact absurd hdigit (by decide)
    simp only [text, sign, hn, hd]
    simp [Number.splitSign, hminus, hplus]

/-- No word that stands for a number begins with a digit. -/
theorem word?_eq_none {d : Char} (hd : d.isDigit = true) (cs : List Char) :
    Number.word? (d :: cs) = none := by
  have hlow : ∀ c : Char, c.isAlpha = true → d.toLower ≠ c := by
    intro c hc heq
    have hd' := Text.isDigit_iff.mp hd
    have hsame : d.toLower = d := by
      unfold Char.toLower
      rw [dif_neg]
      rintro ⟨h, -⟩
      have : 65 ≤ d.toNat := UInt32.le_iff_toNat_le.mp h
      omega
    rw [← heq, hsame, Text.isAlpha_iff] at hc
    omega
  have hi := hlow 'i' (by decide)
  have hn := hlow 'n' (by decide)
  simp [Number.word?, hi, hn]

theorem decimal?_text (n : Numeral) :
    Number.decimal? (n.whole ++ (n.point ++ n.places)) =
      some ⟨Decimal.ofDigits (n.whole ++ n.places), -(n.places.length : Int)⟩ := by
  have hstops : Text.Stops Char.isDigit (n.point ++ n.places) := by
    have h := n.stops_point (Text.stops_nil _)
    rwa [List.append_nil] at h
  obtain ⟨htake, hdrop⟩ := Text.longestRun_iff.mp ⟨rfl, n.whole_digits, hstops⟩
  unfold Number.decimal?
  simp only [htake, hdrop]
  rcases n.point_cases with hp | ⟨hp, hf⟩
  · obtain ⟨htake', hdrop'⟩ :=
      Text.longestRun_iff.mp ⟨(List.append_nil _).symm, n.places_digits, Text.stops_nil _⟩
    simp [hp, htake', hdrop', n.whole_ne_nil, Number.exponent?, Number.clampExponent]
    omega
  · simp [hp, hf, n.whole_ne_nil, Number.exponent?, Number.clampExponent]
    omega

/-- Every numeral is read, and to its value. -/
theorem parse?_text (n : Numeral) : Number.parse? n.text = some n.value := by
  obtain ⟨d, ds, hd, hdigit⟩ := n.exists_whole_cons
  have hword : Number.word? (n.whole ++ (n.point ++ n.places)) = none := by
    rw [hd, List.cons_append]
    exact word?_eq_none hdigit _
  simp [Number.parse?, splitSign_text, hword, decimal?_text, value]

end Numeral
end StackScript
