import StackScript.Proofs.Number.RoundTrip
import StackScript.Proofs.Text.View

/-!
# The longest match

A scanner takes the longest piece of its class, where it takes one at all. `Longest` says so for any class of
texts: for runs it is another way to say `LongestRun` (`longest_iff_longestRun`), and for numerals it is shown here
that the four runs of the number scanner, each taken as long as possible, make up the longest numeral
(`Numeral.longest_text`). Main statement (`number_takes_longest_numeral`): on which texts the number scanner succeeds,
what it takes there, and that it never fails at reading what it took.
-/

namespace StackScript

namespace Text

variable {p : Char → Bool} {cs v w rest : List Char}

/-- `w` is the longest of the texts in `P` that `cs` begins with. -/
structure Longest (P : List Char → Prop) (cs w : List Char) : Prop where
  begins : w <+: cs
  holds : P w
  longest : ∀ v, v <+: cs → P v → v.length ≤ w.length

/-- No text in the class goes further than the longest run. -/
theorem LongestRun.length_le (h : LongestRun p cs w rest) (hv : v <+: cs) (hall : ∀ c ∈ v, p c = true) :
    v.length ≤ w.length := by
  obtain ⟨htake, -⟩ := longestRun_iff.mp h
  obtain ⟨tail, rfl⟩ := hv
  rw [← htake, List.takeWhile_append_of_pos hall, List.length_append]
  exact Nat.le_add_right _ _

theorem longest_iff_longestRun : Longest (∀ c ∈ ·, p c = true) cs w ↔ ∃ rest, LongestRun p cs w rest := by
  constructor
  · intro h
    obtain ⟨rest, hrest⟩ := h.begins
    refine ⟨rest, hrest.symm, h.holds, ?_⟩
    intro c hc
    obtain ⟨tail, rfl⟩ : ∃ tail, rest = c :: tail := List.head?_eq_some_iff.mp hc
    cases hp : p c with
    | false => rfl
    | true =>
      -- One character more would still be a run.
      have hrun : ∀ d ∈ w ++ [c], p d = true := by
        intro d hd
        rcases List.mem_append.mp hd with hd | hd
        · exact h.holds d hd
        · rw [List.mem_singleton.mp hd]
          exact hp
      have hlonger := h.longest (w ++ [c]) ⟨tail, by simpa using hrest⟩ hrun
      rw [List.length_append, List.length_singleton] at hlonger
      omega
  · intro ⟨rest, h⟩
    exact ⟨⟨rest, h.split.symm⟩, h.all, fun v hv hall => h.length_le hv hall⟩

end Text

/-! ### Numerals -/

/-- A text that is a numeral, `-?[0-9]+(\.[0-9]*)?`. -/
def IsNumeral (w : List Char) : Prop := ∃ n : Numeral, n.text = w

namespace Numeral

open Text

/-- A numeral has a sign exactly if its text begins with one. -/
theorem negative_eq (n : Numeral) (rest : List Char) : n.negative = ((n.text ++ rest).head? == some '-') := by
  obtain ⟨d, ds, hd, hdigit⟩ := n.exists_whole_cons
  have hminus : d ≠ '-' := by
    intro heq
    rw [heq] at hdigit
    exact absurd hdigit (by decide)
  cases hn : n.negative with
  | true => simp [text, sign, hn]
  | false => simp [text, sign, hn, hd, hminus]

/-- A numeral that no digit follows, and no point where it has no digits behind a point, is the longest that its
text begins with. -/
theorem longest_text (n : Numeral) {rest : List Char} (hstops : Stops Char.isDigit rest)
    (hpoint : n.places = [] → Stops (· == '.') rest) : Longest IsNumeral (n.text ++ rest) n.text := by
  refine ⟨⟨rest, rfl⟩, ⟨n, rfl⟩, ?_⟩
  intro v ⟨rest', hv⟩ ⟨n', hn'⟩
  subst hn'
  have hsign : n'.sign = n.sign := by
    unfold sign
    rw [n.negative_eq rest, n'.negative_eq rest', hv]
  have htail : n'.whole ++ (n'.point ++ (n'.places ++ rest')) = n.whole ++ (n.point ++ (n.places ++ rest)) := by
    simpa [text, hsign] using hv
  have hwhole : LongestRun Char.isDigit (n.whole ++ (n.point ++ (n.places ++ rest))) n.whole
      (n.point ++ (n.places ++ rest)) :=
    ⟨rfl, n.whole_digits, by simpa using n.stops_point hstops⟩
  have hle := hwhole.length_le ⟨_, htail⟩ n'.whole_digits
  simp only [text, hsign, List.length_append]
  rcases n'.point_cases with hdot | ⟨hnone, hplaces⟩
  · -- The digits before the point are all the digits there, so they are the same in both numerals.
    have hwhole' : LongestRun Char.isDigit (n.whole ++ (n.point ++ (n.places ++ rest))) n'.whole
        ('.' :: (n'.places ++ rest')) :=
      ⟨by rw [← htail, hdot]; rfl, n'.whole_digits, stops_cons.mpr (by decide)⟩
    obtain ⟨hsame, hbehind⟩ := hwhole'.unique hwhole
    rcases n.point_cases with hdot' | ⟨hnone', hplaces'⟩
    · rw [hdot'] at hbehind
      have hrun : LongestRun Char.isDigit (n.places ++ rest) n.places rest := ⟨rfl, n.places_digits, hstops⟩
      have hle' := hrun.length_le ⟨rest', (List.cons.inj hbehind).2⟩ n'.places_digits
      rw [hsame, hdot, hdot']
      omega
    · rw [hnone', hplaces'] at hbehind
      have hstop := hpoint hplaces'
      have hrest : '.' :: (n'.places ++ rest') = rest := hbehind
      rw [← hrest] at hstop
      exact absurd (stops_cons.mp hstop) (by decide)
  · rw [hnone, hplaces]
    simp only [List.length_nil]
    omega

end Numeral

/-! ### The number scanner -/

namespace Scan

open Text Fallible

/-- A text in which a number may begin: at most one minus sign, at least one digit, and at most one point right
behind the digits. -/
inductive NumberAhead : List Char → Prop
  | mk {sign whole points rest : List Char} : (sign = ['-'] ∨ sign = []) → whole ≠ [] →
      LongestRun Char.isDigit (whole ++ (points ++ rest)) whole (points ++ rest) →
      LongestRun (· == '.') (points ++ rest) points rest → points.length ≤ 1 →
      NumberAhead (sign ++ (whole ++ (points ++ rest)))

variable {cs : List Char}

/-- A run fails only for its length. -/
theorem run_ne_notNumber {p : Char → Bool} {least : Nat} {most : Option Nat} {t : String} :
    run p least most cs ≠ .error (.notNumber t) := by
  unfold run
  grind

/-- The first three runs of the number scanner. -/
theorem numberAhead_of_runs {sign whole point : Scanned (List Char)} (hsign : run (· == '-') 0 (some 1) cs = .ok sign)
    (hwhole : atLeast 1 Char.isDigit sign.rest = .ok whole)
    (hpoint : run (· == '.') 0 (some 1) whole.rest = .ok point) : NumberAhead cs := by
  obtain ⟨hminus, rfl, -, -⟩ := run_optional_eq_ok_iff.mp hsign
  obtain ⟨hdigits, -, hleast⟩ := atLeast_eq_ok_iff.mp hwhole
  obtain ⟨hdots, -, -, hmost⟩ := run_eq_ok_iff.mp hpoint
  have hbehind := hdots.split
  have hahead := hdigits.split
  rw [hbehind] at hahead hdigits hdots
  rw [hahead] at hdigits ⊢
  exact .mk hminus (List.length_pos_iff.mp hleast) hdigits hdots (hmost 1 rfl)

theorem numberAhead_of_number {s : Scanned Number} (h : number cs = .ok s) : NumberAhead cs := by
  simp only [number, bind_eq_ok_iff] at h
  obtain ⟨sign, hsign, whole, hwhole, point, hpoint, -⟩ := h
  exact numberAhead_of_runs hsign hwhole hpoint

/-- What is ahead is a numeral and a text that does not go on with it. -/
theorem NumberAhead.exists_numeral (h : NumberAhead cs) :
    ∃ (n : Numeral) (rest : List Char), cs = n.text ++ rest ∧ Stops Char.isDigit rest ∧
      (n.places = [] → Stops (· == '.') rest) := by
  cases h with
  | @mk sign whole points rest hsign hne hdigits hdots hlength =>
    match points, hlength with
    | [], _ =>
      obtain ⟨n, rfl, rfl, hpoint, hplaces⟩ := Numeral.exists_of_pieces hsign hne hdigits.all (.inr ⟨rfl, rfl⟩)
        (List.forall_mem_nil _)
      exact ⟨n, rest, by simp [Numeral.text, hpoint, hplaces], hdigits.stops, fun _ => hdots.stops⟩
    | [c], _ =>
      have hc : c = '.' := by simpa using hdots.all c (by simp)
      subst hc
      have hrun := longestRun_takeWhile Char.isDigit rest
      obtain ⟨n, rfl, rfl, hpoint, hplaces⟩ := Numeral.exists_of_pieces hsign hne hdigits.all (.inl rfl) hrun.all
      refine ⟨n, rest.dropWhile Char.isDigit, ?_, hrun.stops, ?_⟩
      · simp [Numeral.text, hpoint, hplaces]
      · intro hnil
        rw [hplaces] at hnil
        have hsplit := hrun.split
        rw [hnil, List.nil_append] at hsplit
        rw [← hsplit]
        exact hdots.stops

theorem NumberAhead.number_isOk (h : NumberAhead cs) : ∃ s, number cs = .ok s := by
  obtain ⟨n, rest, rfl, hstops, hpoint⟩ := h.exists_numeral
  exact ⟨_, number_of_numeral n hstops hpoint⟩

/-- What the number scanner has taken can be read, for otherwise it would not have come so far. -/
theorem number_ne_notNumber {t : String} : number cs ≠ .error (.notNumber t) := by
  intro h
  have hahead : NumberAhead cs := by
    simp only [number, bind_eq_error_iff] at h
    rcases h with h | ⟨sign, hsign, h | ⟨whole, hwhole, h | ⟨point, hpoint, -⟩⟩⟩
    · exact absurd h run_ne_notNumber
    · exact absurd h run_ne_notNumber
    · exact absurd h run_ne_notNumber
    · exact numberAhead_of_runs hsign hwhole hpoint
  obtain ⟨s, hs⟩ := hahead.number_isOk
  rw [hs] at h
  cases h

/-- The number scanner succeeds exactly where a number is ahead. It takes the longest numeral there and gives the
number that the numeral is read as, which is no NaN; a text that it has taken is never refused as a number. The
consumer of numbers does the same at a cursor. -/
theorem number_takes_longest_numeral (cs : List Char) :
    Cursor.Shows Cursor.number number ∧
      ((∃ s, number cs = .ok s) ↔ NumberAhead cs) ∧
      (∀ s, number cs = .ok s → ∃ w, Longest IsNumeral cs w ∧ cs = w ++ s.rest ∧ s.count = w.length ∧
        Number.parse? w = some s.value ∧ s.value.isNaN = false) ∧
      ∀ t, number cs ≠ .error (.notNumber t) := by
  refine ⟨Cursor.shows_number, ⟨fun ⟨s, hs⟩ => numberAhead_of_number hs, fun h => h.number_isOk⟩, ?_,
    fun t => number_ne_notNumber⟩
  intro s hs
  obtain ⟨n, hcs, hvalue, hcount, hstops, hpoint⟩ := numeral_of_number hs
  refine ⟨n.text, ?_, hcs, hcount, ?_, ?_⟩
  · rw [hcs]
    exact n.longest_text hstops hpoint
  · rw [hvalue]
    exact n.parse?_text
  · rw [hvalue]
    exact n.isNaN_value

/-- Both texts begin with a numeral. Behind the digits of the first the run of points is too long. -/
example : (number "1..2".toList).toOption = none ∧ (number "-1.2.".toList).toOption.map (·.rest) = some ['.'] := by
  decide +kernel

end Scan
end StackScript
