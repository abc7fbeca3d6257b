import StackScript.Text.Blank
import StackScript.Text.Scan

/-!
# Runs of characters

Scanning cuts a text in two: the longest run of characters of some class, and what follows.
`LongestRun` says what such a cut is without saying how it is found, and `longestRun_iff` says that
`takeWhile` and `dropWhile` find it. What may follow a run is the condition `Stops`, which all
statements about scanners share.

The second half relates the classes of characters that the scanners use.
-/

namespace StackScript
namespace Text

/-! ### Cutting off a run -/

/-- The text does not begin with a character in `p`. -/
def Stops (p : Char → Bool) (cs : List Char) : Prop := ∀ c ∈ cs.head?, p c = false

/-- `w` is the longest run of characters in `p` at the head of `cs`, and `rest` is what follows. -/
structure LongestRun (p : Char → Bool) (cs w rest : List Char) : Prop where
  split : cs = w ++ rest
  all : ∀ c ∈ w, p c = true
  stops : Stops p rest

@[simp] theorem stops_nil (p : Char → Bool) : Stops p [] := by
  intro c hc; simp at hc

@[simp] theorem stops_cons {p : Char → Bool} {c : Char} {cs : List Char} :
    Stops p (c :: cs) ↔ p c = false := by
  simp [Stops]

/-- A text that stops a class stops every smaller class. -/
theorem Stops.mono {p q : Char → Bool} {cs : List Char} (h : Stops q cs)
    (hpq : ∀ c, p c = true → q c = true) : Stops p cs := by
  intro c hc
  have hq := h c hc
  cases hp : p c with
  | false => rfl
  | true => rw [hpq c hp] at hq; exact absurd hq (by decide)

theorem Stops.of_isPrefix {p : Char → Bool} {cs ds : List Char} (h : Stops p ds) (hds : cs <+: ds) : Stops p cs := by
  cases cs with
  | nil => exact stops_nil p
  | cons c cs =>
    obtain ⟨rest, rfl⟩ := hds
    exact stops_cons.mpr (stops_cons.mp h)

theorem stops_dropWhile (p : Char → Bool) (cs : List Char) : Stops p (cs.dropWhile p) := by
  intro c hc
  have h := List.head?_dropWhile_not p cs
  rw [hc] at h
  simpa using h

theorem longestRun_takeWhile (p : Char → Bool) (cs : List Char) :
    LongestRun p cs (cs.takeWhile p) (cs.dropWhile p) where
  split := List.takeWhile_append_dropWhile.symm
  all := List.all_eq_true.mp List.all_takeWhile
  stops := stops_dropWhile p cs

theorem Stops.takeWhile_eq_nil {p : Char → Bool} {cs : List Char} (h : Stops p cs) :
    cs.takeWhile p = [] := by
  cases cs with
  | nil => rfl
  | cons c cs => rw [List.takeWhile_cons, stops_cons.mp h]; rfl

theorem Stops.dropWhile_eq_self {p : Char → Bool} {cs : List Char} (h : Stops p cs) :
    cs.dropWhile p = cs := by
  cases cs with
  | nil => rfl
  | cons c cs => rw [List.dropWhile_cons, stops_cons.mp h]; rfl

/-- There is one longest run, and it is found from the left. -/
theorem longestRun_iff {p : Char → Bool} {cs w rest : List Char} :
    LongestRun p cs w rest ↔ cs.takeWhile p = w ∧ cs.dropWhile p = rest := by
  constructor
  · rintro ⟨rfl, hall, hstops⟩
    rw [List.takeWhile_append_of_pos hall, List.dropWhile_append_of_pos hall,
      hstops.takeWhile_eq_nil, hstops.dropWhile_eq_self, List.append_nil]
    exact ⟨rfl, rfl⟩
  · rintro ⟨rfl, rfl⟩
    exact longestRun_takeWhile p cs

theorem LongestRun.unique {p : Char → Bool} {cs w w' rest rest' : List Char} (h : LongestRun p cs w rest)
    (h' : LongestRun p cs w' rest') : w = w' ∧ rest = rest' := by
  obtain ⟨htake, hdrop⟩ := longestRun_iff.mp h
  obtain ⟨htake', hdrop'⟩ := longestRun_iff.mp h'
  exact ⟨htake.symm.trans htake', hdrop.symm.trans hdrop'⟩

/-- A text is cut in one way at the first occurrence of a character. -/
theorem eq_of_append_cons_eq {c : Char} {w w' rest rest' : List Char} (hw : c ∉ w) (hw' : c ∉ w')
    (h : w ++ c :: rest = w' ++ c :: rest') : w = w' ∧ rest = rest' := by
  have hrun : ∀ w rest : List Char, c ∉ w → LongestRun (· != c) (w ++ c :: rest) w (c :: rest) := by
    intro w rest hw
    refine ⟨rfl, fun d hd => bne_iff_ne.mpr ?_, stops_cons.mpr (by simp)⟩
    rintro rfl
    exact hw hd
  obtain ⟨hsame, hbehind⟩ := (hrun w rest hw).unique (h ▸ hrun w' rest' hw')
  exact ⟨hsame, (List.cons.inj hbehind).2⟩

/-! ### Blanks -/

/-- A run of blanks, possibly empty. -/
def Blanks (cs : List Char) : Prop := ∀ c ∈ cs, isBlank c = true

@[simp] theorem blanks_nil : Blanks [] := by
  intro c hc; simp at hc

theorem Blanks.append {g g' : List Char} (h : Blanks g) (h' : Blanks g') : Blanks (g ++ g') := by
  intro c hc
  rcases List.mem_append.mp hc with hc | hc
  · exact h c hc
  · exact h' c hc

/-- Blanks in front do not change how a text begins, as far as characters that are not blank go. -/
theorem Blanks.stops_append {p : Char → Bool} {g cs : List Char} (hg : Blanks g)
    (hp : ∀ c, isBlank c = true → p c = false) (hcs : Stops p cs) : Stops p (g ++ cs) := by
  cases g with
  | nil => exact hcs
  | cons c g => exact stops_cons.mpr (hp c (hg c (by simp)))

theorem Blanks.stops_beq_append {c : Char} {g cs : List Char} (hg : Blanks g) (hc : isBlank c = false)
    (hcs : Stops (· == c) cs) : Stops (· == c) (g ++ cs) := by
  refine hg.stops_append (fun d hd => beq_eq_false_iff_ne.mpr ?_) hcs
  rintro rfl
  rw [hc] at hd
  exact absurd hd (by decide)

/-- Skipping blanks leaves the text from its first character that is not blank. -/
theorem skipBlanks_append {g cs : List Char} (hg : Blanks g) (hcs : Stops isBlank cs) :
    skipBlanks (g ++ cs) = cs :=
  (longestRun_iff.mp ⟨rfl, hg, hcs⟩).2

theorem skipBlanks_suffix (cs : List Char) : skipBlanks cs <:+ cs := List.dropWhile_suffix isBlank

theorem skipBlanks_skipBlanks (cs : List Char) : skipBlanks (skipBlanks cs) = skipBlanks cs :=
  (stops_dropWhile isBlank cs).dropWhile_eq_self

/-- Every text is blanks and then what skipping them leaves. -/
theorem exists_skipBlanks (cs : List Char) :
    ∃ g, cs = g ++ skipBlanks cs ∧ Blanks g ∧ Stops isBlank (skipBlanks cs) := by
  have h := longestRun_takeWhile isBlank cs
  exact ⟨_, h.split, h.all, h.stops⟩

/-! ### Classes of characters -/

theorem isAlpha_iff {c : Char} :
    c.isAlpha = true ↔ (65 ≤ c.toNat ∧ c.toNat ≤ 90) ∨ (97 ≤ c.toNat ∧ c.toNat ≤ 122) := by
  show (decide (c.val ≥ 'A'.val ∧ c.val ≤ 'Z'.val) ||
    (decide (c.val ≥ 'a'.val) && decide (c.val ≤ 'z'.val))) = true ↔ _
  simp [UInt32.le_iff_toNat_le]

theorem isDigit_iff {c : Char} : c.isDigit = true ↔ 48 ≤ c.toNat ∧ c.toNat ≤ 57 := by
  simp [Char.isDigit, UInt32.le_iff_toNat_le]

theorem isAlphanum_iff {c : Char} : c.isAlphanum = true ↔ c.isAlpha = true ∨ c.isDigit = true := by
  simp [Char.isAlphanum]

theorem isBlank_iff {c : Char} :
    isBlank c = true ↔ (9 ≤ c.toNat ∧ c.toNat ≤ 13) ∨ c.toNat = 32 ∨ c.toNat = 133 ∨ c.toNat = 160 ∨
      c.toNat = 5760 ∨ (8192 ≤ c.toNat ∧ c.toNat ≤ 8202) ∨ c.toNat = 8232 ∨ c.toNat = 8233 ∨
      c.toNat = 8239 ∨ c.toNat = 8287 ∨ c.toNat = 12288 := by
  simp [isBlank, or_assoc]

end Text
end StackScript
