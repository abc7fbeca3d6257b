import StackScript.Proofs.Fallible
import StackScript.Proofs.Grammar.Basic

/-!
# What the scanners take

For each scanner, the exact condition under which it succeeds, and with what. All have one shape:
the text is the piece taken and the rest, the piece belongs to a class of the grammar, and the rest
does not go on with characters that would have extended the piece.
-/

namespace StackScript
namespace Scan

open Text Grammar Fallible

variable {cs w rest : List Char} {n : Nat}

/-! ### Runs and single characters -/

/-- A run is taken whole, or, if its length is out of bounds, not at all. -/
theorem run_eq_ok_iff {p : Char → Bool} {least : Nat} {most : Option Nat} :
    run p least most cs = .ok ⟨w, n, rest⟩ ↔
      LongestRun p cs w rest ∧ n = w.length ∧ least ≤ w.length ∧ ∀ m ∈ most, w.length ≤ m := by
  rw [longestRun_iff]
  unfold run
  constructor
  · intro h
    simp only at h
    split at h
    · simp at h
    · next hleast =>
      cases most with
      | none =>
        simp only [Except.ok.injEq, Scanned.mk.injEq] at h
        obtain ⟨rfl, rfl, rfl⟩ := h
        exact ⟨⟨rfl, rfl⟩, rfl, Nat.le_of_not_lt hleast, by simp⟩
      | some m =>
        simp only at h
        split at h
        · simp at h
        · next hmost =>
          simp only [Except.ok.injEq, Scanned.mk.injEq] at h
          obtain ⟨rfl, rfl, rfl⟩ := h
          exact ⟨⟨rfl, rfl⟩, rfl, Nat.le_of_not_lt hleast, by simpa using hmost⟩
  · rintro ⟨⟨rfl, rfl⟩, rfl, hleast, hmost⟩
    simp only [Nat.not_lt.mpr hleast, if_false]
    cases most with
    | none => rfl
    | some m => simp [Nat.not_lt.mpr (hmost m rfl)]

theorem atLeast_eq_ok_iff {p : Char → Bool} {least : Nat} :
    atLeast least p cs = .ok ⟨w, n, rest⟩ ↔ LongestRun p cs w rest ∧ n = w.length ∧ least ≤ w.length := by
  simp [atLeast, run_eq_ok_iff]

theorem one_eq_ok_iff {p : Char → Bool} {c : Char} :
    one p cs = .ok ⟨c, n, rest⟩ ↔ cs = c :: rest ∧ n = 1 ∧ p c = true := by
  cases cs with
  | nil => simp [one]
  | cons d ds =>
    simp only [one]
    split
    · next hd =>
      simp only [Except.ok.injEq, Scanned.mk.injEq, List.cons.injEq]
      constructor
      · rintro ⟨rfl, rfl, rfl⟩; exact ⟨⟨rfl, rfl⟩, rfl, hd⟩
      · rintro ⟨⟨rfl, rfl⟩, rfl, -⟩; exact ⟨rfl, rfl, rfl⟩
    · next hd =>
      constructor
      · intro h; simp at h
      · rintro ⟨h, -, hc⟩; rw [(List.cons.inj h).1] at hd; exact absurd hc hd

/-- What follows a lone character is not that character again. -/
theorem lone_eq_ok_iff {c : Char} :
    lone c cs = .ok ⟨(), n, rest⟩ ↔ cs = c :: rest ∧ Stops (· == c) rest ∧ n = 1 := by
  simp only [lone, bind_eq_ok_iff, pure_eq_ok, Except.ok.injEq, Scanned.mk.injEq, true_and]
  constructor
  · rintro ⟨⟨w, n', rest'⟩, hrun, rfl, rfl⟩
    obtain ⟨⟨hsplit, hall, hstops⟩, hn, hleast, hmost⟩ := run_eq_ok_iff.mp hrun
    obtain ⟨d, rfl⟩ : ∃ d, w = [d] := List.length_eq_one_iff.mp (Nat.le_antisymm (hmost 1 rfl) hleast)
    have hd : d = c := by simpa using hall d (by simp)
    subst hd
    exact ⟨hsplit, hstops, hn⟩
  · rintro ⟨rfl, hstops, rfl⟩
    exact ⟨⟨[c], 1, rest⟩, run_eq_ok_iff.mpr ⟨⟨rfl, by simp, hstops⟩, rfl, by simp, by simp⟩, rfl, rfl⟩

/-- A character that does not head the text is not found. -/
theorem lone_fails {c : Char} (h : Stops (· == c) cs) : ∃ e, lone c cs = .error e := by
  refine exists_eq_error ?_
  rintro ⟨⟨⟩, n, rest⟩ hs
  obtain ⟨rfl, -, -⟩ := lone_eq_ok_iff.mp hs
  simp at h

/-! ### Words -/

theorem word_eq_ok_iff {start body : Char → Bool} :
    word start body cs = .ok ⟨w, n, rest⟩ ↔
      cs = w ++ rest ∧ Word start body w ∧ Stops body rest ∧ n = w.length := by
  simp only [word, bind_eq_ok_iff, pure_eq_ok, Except.ok.injEq, Scanned.mk.injEq]
  constructor
  · rintro ⟨⟨c, k, tail⟩, hhead, ⟨w', k', rest'⟩, htail, rfl, rfl, rfl⟩
    obtain ⟨rfl, rfl, hc⟩ := one_eq_ok_iff.mp hhead
    obtain ⟨⟨hsplit, hall, hstops⟩, rfl, -⟩ := atLeast_eq_ok_iff.mp htail
    exact ⟨congrArg (c :: ·) hsplit, .cons hc hall, hstops, Nat.add_comm _ _⟩
  · rintro ⟨rfl, hw, hstops, rfl⟩
    cases hw with
    | @cons c w' hc hall =>
      exact ⟨⟨c, 1, w' ++ rest⟩, one_eq_ok_iff.mpr ⟨rfl, rfl, hc⟩, ⟨w', w'.length, rest⟩,
        atLeast_eq_ok_iff.mpr ⟨⟨rfl, hall, hstops⟩, rfl, Nat.zero_le _⟩, rfl, Nat.add_comm _ _, rfl⟩

theorem word_fails {start body : Char → Bool} (h : Stops start cs) :
    ∃ e, word start body cs = .error e := by
  refine exists_eq_error ?_
  rintro ⟨w, n, rest⟩ hs
  obtain ⟨rfl, hw, -, -⟩ := word_eq_ok_iff.mp hs
  cases hw with
  | cons hc hall => rw [List.cons_append, stops_cons, hc] at h; exact absurd h (by decide)

theorem label_eq_ok_iff :
    label cs = .ok ⟨w, n, rest⟩ ↔
      cs = w ++ ':' :: rest ∧ Identifier w ∧ Stops (· == ':') rest ∧ n = w.length + 1 := by
  simp only [label, bind_eq_ok_iff, pure_eq_ok, Except.ok.injEq, Scanned.mk.injEq]
  constructor
  · rintro ⟨⟨w', k, tail⟩, hname, ⟨⟨⟩, k', rest'⟩, hcolon, rfl, rfl, rfl⟩
    obtain ⟨rfl, hw, -, rfl⟩ := word_eq_ok_iff.mp hname
    obtain ⟨rfl, hstops, rfl⟩ := lone_eq_ok_iff.mp hcolon
    exact ⟨rfl, hw, hstops, rfl⟩
  · rintro ⟨rfl, hw, hstops, rfl⟩
    exact ⟨⟨w, w.length, ':' :: rest⟩,
      word_eq_ok_iff.mpr ⟨rfl, hw, stops_cons.mpr (by decide), rfl⟩, ⟨(), 1, rest⟩,
      lone_eq_ok_iff.mpr ⟨rfl, hstops, rfl⟩, rfl, rfl, rfl⟩

theorem identifier_stops_of_not_start {c : Char} (hc : isIdentifierStart c = false) (hw : Identifier w) :
    Stops (· == c) (w ++ rest) := by
  cases hw with
  | @cons d w' hd hall =>
    refine stops_cons.mpr (beq_eq_false_iff_ne.mpr ?_)
    rintro rfl
    rw [hc] at hd
    exact absurd hd (by decide)

theorem register_eq_ok_iff :
    register cs = .ok ⟨w, n, rest⟩ ↔
      cs = '$' :: w ++ rest ∧ Identifier w ∧ Stops isIdentifierBody rest ∧ n = 1 + w.length := by
  simp only [register, bind_eq_ok_iff, pure_eq_ok, Except.ok.injEq, Scanned.mk.injEq]
  constructor
  · rintro ⟨⟨⟨⟩, k, tail⟩, hsigil, ⟨w', k', rest'⟩, hname, rfl, rfl, rfl⟩
    obtain ⟨rfl, -, rfl⟩ := lone_eq_ok_iff.mp hsigil
    obtain ⟨rfl, hw, hstops, rfl⟩ := word_eq_ok_iff.mp hname
    exact ⟨rfl, hw, hstops, rfl⟩
  · rintro ⟨rfl, hw, hstops, rfl⟩
    have hdollar : Stops (· == '$') (w ++ rest) := identifier_stops_of_not_start (by decide) hw
    exact ⟨⟨(), 1, w ++ rest⟩, lone_eq_ok_iff.mpr ⟨rfl, hdollar, rfl⟩, ⟨w, w.length, rest⟩,
      word_eq_ok_iff.mpr ⟨rfl, hw, hstops, rfl⟩, rfl, rfl, rfl⟩

theorem register_fails (h : Stops (· == '$') cs) : ∃ e, register cs = .error e := by
  refine exists_eq_error ?_
  rintro ⟨w, n, rest⟩ hs
  obtain ⟨rfl, -⟩ := register_eq_ok_iff.mp hs
  simp at h

/-! ### Comments and leftovers -/

/-- Two slashes make a comment, whatever follows them. -/
theorem comment_isOk_iff : (∃ s, comment cs = .ok s) ↔ ∃ tail, cs = '/' :: '/' :: tail := by
  constructor
  · rintro ⟨s, hs⟩
    obtain ⟨⟨w, n, rest⟩, hslashes, -⟩ := bind_eq_ok_iff.mp hs
    obtain ⟨⟨hsplit, hall, -⟩, -, hleast⟩ := atLeast_eq_ok_iff.mp hslashes
    match w, hleast with
    | a :: b :: w', _ =>
      have ha : a = '/' := by simpa using hall a (by simp)
      have hb : b = '/' := by simpa using hall b (by simp)
      subst ha hb
      exact ⟨w' ++ rest, hsplit⟩
  · rintro ⟨tail, rfl⟩
    have hslashes : atLeast 2 (· == '/') ('/' :: '/' :: tail) =
        .ok ⟨'/' :: '/' :: tail.takeWhile (· == '/'), _, tail.dropWhile (· == '/')⟩ :=
      atLeast_eq_ok_iff.mpr ⟨longestRun_iff.mpr (by simp), rfl, by simp⟩
    have hbody : atLeast 0 (fun _ => true) (tail.dropWhile (· == '/')) =
        .ok ⟨tail.dropWhile (· == '/'), _, []⟩ :=
      atLeast_eq_ok_iff.mpr ⟨⟨by simp, by simp, stops_nil _⟩, rfl, Nat.zero_le _⟩
    exact ⟨_, bind_eq_ok_iff.mpr ⟨_, hslashes, bind_eq_ok_iff.mpr ⟨_, hbody, rfl⟩⟩⟩

/-- Past the blanks, something is left over unless the text has ended. -/
theorem nonBlank_isOk_iff (h : Stops isBlank cs) : (∃ s, nonBlank cs = .ok s) ↔ cs ≠ [] := by
  constructor
  · rintro ⟨⟨w, n, rest⟩, hs⟩ rfl
    obtain ⟨⟨hsplit, -, -⟩, -, hleast⟩ := atLeast_eq_ok_iff.mp hs
    rw [(List.nil_eq_append_iff.mp hsplit).1] at hleast
    exact absurd hleast (by decide)
  · intro hne
    obtain ⟨c, cs, rfl⟩ := List.exists_cons_of_ne_nil hne
    refine ⟨_, atLeast_eq_ok_iff.mpr ⟨longestRun_takeWhile _ _, rfl, ?_⟩⟩
    simp [stops_cons.mp h]

/-! ### Literals -/

theorem boolean_eq_ok_iff {b : Bool} :
    boolean cs = .ok ⟨b, n, rest⟩ ↔
      ∃ w, LongestRun isLetter cs w rest ∧ n = w.length ∧
        w.map Char.toLower = if b then "true".toList else "false".toList := by
  simp only [boolean, bind_eq_ok_iff]
  constructor
  · rintro ⟨⟨w, k, rest'⟩, hletters, h⟩
    obtain ⟨hrun, rfl, -⟩ := atLeast_eq_ok_iff.mp hletters
    simp only at h
    split at h
    · next hlower =>
      simp only [pure_eq_ok, Except.ok.injEq, Scanned.mk.injEq] at h
      obtain ⟨rfl, rfl, rfl⟩ := h
      exact ⟨w, hrun, rfl, hlower⟩
    · split at h
      · next hlower =>
        simp only [pure_eq_ok, Except.ok.injEq, Scanned.mk.injEq] at h
        obtain ⟨rfl, rfl, rfl⟩ := h
        exact ⟨w, hrun, rfl, hlower⟩
      · simp at h
  · rintro ⟨w, hrun, rfl, hlower⟩
    refine ⟨⟨w, w.length, rest⟩, atLeast_eq_ok_iff.mpr ⟨hrun, rfl, Nat.zero_le _⟩, ?_⟩
    simp only [hlower]
    cases b with
    | true => rfl
    | false => rfl

/-- A text that does not begin with a letter is no boolean. -/
theorem boolean_fails (h : Stops isLetter cs) : ∃ e, boolean cs = .error e := by
  refine exists_eq_error ?_
  rintro ⟨b, n, rest⟩ hs
  obtain ⟨w, hrun, -, hlower⟩ := boolean_eq_ok_iff.mp hs
  rw [← (longestRun_iff.mp hrun).1, h.takeWhile_eq_nil] at hlower
  cases b with
  | true => exact absurd hlower (by decide)
  | false => exact absurd hlower (by decide)

/-- At most one `c`, and none after it. -/
theorem run_optional_eq_ok_iff {c : Char} :
    run (· == c) 0 (some 1) cs = .ok ⟨w, n, rest⟩ ↔
      (w = [c] ∨ w = []) ∧ cs = w ++ rest ∧ Stops (· == c) rest ∧ n = w.length := by
  rw [run_eq_ok_iff]
  constructor
  · rintro ⟨⟨hsplit, hall, hstops⟩, hn, -, hmost⟩
    refine ⟨?_, hsplit, hstops, hn⟩
    match w, hmost 1 rfl with
    | [], _ => exact .inr rfl
    | [d], _ => exact .inl (by simpa using hall d (by simp))
  · rintro ⟨hw, hsplit, hstops, hn⟩
    have hall : ∀ d ∈ w, (d == c) = true := by
      rcases hw with rfl | rfl <;> simp
    have hlength : w.length ≤ 1 := by
      rcases hw with rfl | rfl <;> simp
    exact ⟨⟨hsplit, hall, hstops⟩, hn, Nat.zero_le _, by rintro m ⟨⟩; exact hlength⟩

/-! The number scanner in four runs: the sign, the first digits, the point, the digits after it. -/

theorem run_sign (num : Numeral) (rest : List Char) :
    run (· == '-') 0 (some 1) (num.text ++ rest) =
      .ok ⟨num.sign, num.sign.length, num.whole ++ (num.point ++ num.places ++ rest)⟩ := by
  obtain ⟨d, ds, hd, hdigit⟩ := num.exists_whole_cons
  refine run_optional_eq_ok_iff.mpr ⟨?_, by simp [Numeral.text], ?_, rfl⟩
  · unfold Numeral.sign
    split <;> simp
  · rw [hd]
    refine stops_cons.mpr (beq_eq_false_iff_ne.mpr ?_)
    rintro rfl
    exact absurd hdigit (by decide)

theorem atLeast_whole (num : Numeral) (hstops : Stops Char.isDigit rest) :
    atLeast 1 Char.isDigit (num.whole ++ (num.point ++ num.places ++ rest)) =
      .ok ⟨num.whole, num.whole.length, num.point ++ (num.places ++ rest)⟩ :=
  atLeast_eq_ok_iff.mpr ⟨⟨by simp, num.whole_digits, by simpa using num.stops_point hstops⟩, rfl,
    List.length_pos_iff.mpr num.whole_ne_nil⟩

/-- A point that ends the numeral must not have another one after it. -/
theorem run_point (num : Numeral) (hpoint : num.places = [] → Stops (· == '.') rest) :
    run (· == '.') 0 (some 1) (num.point ++ (num.places ++ rest)) =
      .ok ⟨num.point, num.point.length, num.places ++ rest⟩ := by
  refine run_optional_eq_ok_iff.mpr ⟨num.point_cases.imp id And.left, rfl, ?_, rfl⟩
  cases hp : num.places with
  | nil => exact hpoint hp
  | cons d ds =>
    refine stops_cons.mpr (beq_eq_false_iff_ne.mpr ?_)
    rintro rfl
    exact absurd (num.places_digits '.' (by simp [hp])) (by decide)

/-- Every numeral is taken, unless what follows goes on with it. -/
theorem number_of_numeral (num : Numeral) (hstops : Stops Char.isDigit rest)
    (hpoint : num.places = [] → Stops (· == '.') rest) :
    number (num.text ++ rest) = .ok ⟨num.value, num.text.length, rest⟩ := by
  have hplaces : atLeast 0 Char.isDigit (num.places ++ rest) =
      .ok ⟨num.places, num.places.length, rest⟩ :=
    atLeast_eq_ok_iff.mpr ⟨⟨rfl, num.places_digits, hstops⟩, rfl, Nat.zero_le _⟩
  have htext : num.sign ++ num.whole ++ num.point ++ num.places = num.text := rfl
  simp only [number, bind_eq_ok_iff]
  refine ⟨_, run_sign num rest, _, atLeast_whole num hstops, _, run_point num hpoint, _, hplaces, ?_⟩
  simp only [htext, num.parse?_text]
  simp [← htext, Nat.add_assoc]

/-- Without a point there are no further digits, for the first run has taken them all. -/
theorem point_or_no_places {point places rest : List Char} (hpoint : point = ['.'] ∨ point = [])
    (hplaces : ∀ c ∈ places, c.isDigit = true) (hstops : Stops Char.isDigit (point ++ (places ++ rest))) :
    point = ['.'] ∨ point = [] ∧ places = [] := by
  rcases hpoint with rfl | rfl
  · exact .inl rfl
  · cases places with
    | nil => exact .inr ⟨rfl, rfl⟩
    | cons d ds =>
      have hd := stops_cons.mp hstops
      rw [hplaces d (by simp)] at hd
      exact absurd hd (by decide)

/-- What is taken is a numeral. -/
theorem numeral_of_number {x : Number} (h : number cs = .ok ⟨x, n, rest⟩) :
    ∃ num : Numeral, cs = num.text ++ rest ∧ x = num.value ∧ n = num.text.length ∧
      Stops Char.isDigit rest ∧ (num.places = [] → Stops (· == '.') rest) := by
  simp only [number, bind_eq_ok_iff] at h
  obtain ⟨⟨sign, k₁, r₁⟩, hsign, ⟨whole, k₂, r₂⟩, hwhole, ⟨point, k₃, r₃⟩, hpoint,
    ⟨places, k₄, r₄⟩, hplaces, h⟩ := h
  obtain ⟨hsign', rfl, -, rfl⟩ := run_optional_eq_ok_iff.mp hsign
  obtain ⟨⟨hsplit₂, hdigits, hstops₂⟩, rfl, hne⟩ := atLeast_eq_ok_iff.mp hwhole
  obtain ⟨hpoint', hsplit₃, hstops₃, rfl⟩ := run_optional_eq_ok_iff.mp hpoint
  obtain ⟨⟨hsplit₄, hdigits', hstops₄⟩, rfl, -⟩ := atLeast_eq_ok_iff.mp hplaces
  simp only at hsplit₂ hsplit₃ hsplit₄ hstops₂ hstops₃
  subst hsplit₂ hsplit₃ hsplit₄
  obtain ⟨num, rfl, rfl, rfl, rfl⟩ :=
    Numeral.exists_of_pieces hsign' (List.length_pos_iff.mp hne) hdigits
      (point_or_no_places hpoint' hdigits' hstops₂) hdigits'
  have htext : num.sign ++ num.whole ++ num.point ++ num.places = num.text := rfl
  simp only [htext, num.parse?_text, pure_eq_ok, Except.ok.injEq, Scanned.mk.injEq] at h
  obtain ⟨rfl, rfl, rfl⟩ := h
  refine ⟨num, by simp [← htext], rfl, by simp [← htext]; omega, hstops₄, ?_⟩
  intro hnil
  rw [hnil] at hstops₃
  exact hstops₃

/-- The number scanner takes exactly the numerals. After one that ends without digits behind its
point, or without a point, another point would make the run of points too long. -/
theorem number_eq_ok_iff {x : Number} :
    number cs = .ok ⟨x, n, rest⟩ ↔
      ∃ num : Numeral, cs = num.text ++ rest ∧ x = num.value ∧ n = num.text.length ∧
        Stops Char.isDigit rest ∧ (num.places = [] → Stops (· == '.') rest) := by
  constructor
  · exact numeral_of_number
  · rintro ⟨num, rfl, rfl, rfl, hstops, hpoint⟩
    exact number_of_numeral num hstops hpoint

/-- A text that does not begin with a minus sign or a digit is no number. -/
theorem number_fails (hsign : Stops (· == '-') cs) (hdigit : Stops Char.isDigit cs) :
    ∃ e, number cs = .error e := by
  refine exists_eq_error ?_
  rintro ⟨x, n, rest⟩ hs
  obtain ⟨num, rfl, -⟩ := number_eq_ok_iff.mp hs
  obtain ⟨c, cs, hcs, hc⟩ := num.exists_text_cons
  rw [hcs, List.cons_append, stops_cons] at hsign hdigit
  rcases hc with rfl | hc
  · simp at hsign
  · rw [hc] at hdigit; exact absurd hdigit (by decide)

theorem forall_bne_iff {c : Char} {cs : List Char} : (∀ d ∈ cs, (d != c) = true) ↔ c ∉ cs := by
  constructor
  · intro h hmem
    simpa using h c hmem
  · intro h d hd
    refine bne_iff_ne.mpr ?_
    rintro rfl
    exact h hd

theorem string_eq_ok_iff :
    string cs = .ok ⟨w, n, rest⟩ ↔
      cs = quote :: (w ++ quote :: rest) ∧ quote ∉ w ∧ n = w.length + 2 := by
  simp only [string, bind_eq_ok_iff]
  constructor
  · rintro ⟨⟨q, k₁, r₁⟩, hopening, ⟨w', k₂, r₂⟩, hbody, h⟩
    obtain ⟨rfl, rfl, hq⟩ := one_eq_ok_iff.mp hopening
    obtain ⟨⟨hsplit, hall, -⟩, rfl, -⟩ := atLeast_eq_ok_iff.mp hbody
    simp only at hsplit h
    subst hsplit
    split at h
    · next s hclosing =>
      obtain ⟨q', k₃, r₃⟩ := s
      obtain ⟨rfl, rfl, hq'⟩ := one_eq_ok_iff.mp hclosing
      simp only [pure_eq_ok, Except.ok.injEq, Scanned.mk.injEq] at h
      obtain ⟨rfl, rfl, rfl⟩ := h
      rw [eq_of_beq hq, eq_of_beq hq']
      exact ⟨rfl, forall_bne_iff.mp hall, by omega⟩
    · simp at h
  · rintro ⟨rfl, hw, rfl⟩
    have hbody : atLeast 0 (· != quote) (w ++ quote :: rest) = .ok ⟨w, w.length, quote :: rest⟩ :=
      atLeast_eq_ok_iff.mpr ⟨⟨rfl, forall_bne_iff.mpr hw, stops_cons.mpr (by decide)⟩, rfl, Nat.zero_le _⟩
    have hclosing : one (· == quote) (quote :: rest) = .ok ⟨quote, 1, rest⟩ :=
      one_eq_ok_iff.mpr ⟨rfl, rfl, by decide⟩
    refine ⟨⟨quote, 1, w ++ quote :: rest⟩, one_eq_ok_iff.mpr ⟨rfl, rfl, by decide⟩, _, hbody, ?_⟩
    simp only [hclosing, pure_eq_ok, Except.ok.injEq, Scanned.mk.injEq]
    exact ⟨trivial, by omega, trivial⟩

end Scan
end StackScript
