import StackScript.Proofs.Text.Run
import StackScript.Text.Line
import Mathlib.Data.List.TakeWhile

/-!
# Line numbers

The scanner numbers physical lines, and it hands on only those that hold some character, so the
numbers increase and may have gaps. The lines of the beginning of a text are those up to some number
(`scan_first`).
-/

namespace StackScript
namespace Line

theorem number_le_of_mem_scanFrom {number : Nat} {cs : List Char} {l : Line} (h : l ∈ scanFrom number cs) :
    number ≤ l.number := by
  fun_induction scanFrom number cs with
  | case1 => simp at h
  | case2 number c cs text rest hempty ih => exact Nat.le_of_succ_le (ih h)
  | case3 number c cs text rest hempty ih =>
    rcases List.mem_cons.mp h with rfl | h
    · exact Nat.le_refl _
    · exact Nat.le_of_succ_le (ih h)

theorem pairwise_number_scanFrom (number : Nat) (cs : List Char) :
    (scanFrom number cs).Pairwise (fun l l' => l.number < l'.number) := by
  fun_induction scanFrom number cs with
  | case1 => exact .nil
  | case2 number c cs text rest hempty ih => exact ih
  | case3 number c cs text rest hempty ih =>
    exact List.pairwise_cons.mpr ⟨fun l hl => number_le_of_mem_scanFrom hl, ih⟩

/-- Lines are handed on in increasing order of their numbers. -/
theorem pairwise_number_scan (cs : List Char) :
    (scan cs).Pairwise (fun l l' => l.number < l'.number) :=
  pairwise_number_scanFrom 1 cs

theorem no_break_of_mem_scanFrom {number : Nat} {cs : List Char} {l : Line} (h : l ∈ scanFrom number cs) :
    ∀ c ∈ l.text, isBreak c = false := by
  fun_induction scanFrom number cs with
  | case1 => simp at h
  | case2 number c cs text rest hempty ih => exact ih h
  | case3 number c cs text rest hempty ih =>
    rcases List.mem_cons.mp h with rfl | h
    · intro d hd
      have hrun := List.all_eq_true.mp List.all_takeWhile d hd
      simpa using hrun
    · exact ih h

/-- No line has a line break in it. -/
theorem no_break_of_mem_scan {cs : List Char} {l : Line} (h : l ∈ scan cs) : ∀ c ∈ l.text, isBreak c = false :=
  no_break_of_mem_scanFrom h

/-! ### Sizes -/

theorem afterBreak_suffix (cs : List Char) : afterBreak cs <:+ cs := by
  fun_cases afterBreak cs with
  | case1 cs => exact ⟨['\r', '\n'], rfl⟩
  | case2 c cs => exact List.suffix_cons c cs
  | case3 => exact List.suffix_refl []

theorem infix_of_mem_scanFrom {number : Nat} {cs : List Char} {l : Line} (h : l ∈ scanFrom number cs) :
    l.text <:+: cs := by
  have hrest : ∀ cs : List Char, afterBreak (cs.dropWhile (!isBreak ·)) <:+: cs := by
    intro cs
    obtain ⟨front, hfront⟩ := afterBreak_suffix (cs.dropWhile (!isBreak ·))
    have hsuffix : cs.dropWhile (!isBreak ·) <:+ cs := List.dropWhile_suffix _
    exact (List.IsSuffix.trans ⟨front, hfront⟩ hsuffix).isInfix
  fun_induction scanFrom number cs with
  | case1 => simp at h
  | case2 number c cs text rest hempty ih => exact (ih h).trans (hrest (c :: cs))
  | case3 number c cs text rest hempty ih =>
    rcases List.mem_cons.mp h with rfl | h
    · exact (List.takeWhile_prefix _).isInfix
    · exact (ih h).trans (hrest (c :: cs))

/-- A line with the number `n` has at least `n` characters up to its end, as each line before it has a break. -/
theorem number_lt_add_length {number : Nat} {cs : List Char} {l : Line} (h : l ∈ scanFrom number cs) :
    l.number < number + cs.length := by
  fun_induction scanFrom number cs with
  | case1 => simp at h
  | case2 number c cs text rest hempty ih =>
    have hlt : rest.length < (c :: cs).length := length_afterBreak_dropWhile_lt _ _ _
    have hnumber := ih h
    omega
  | case3 number c cs text rest hempty ih =>
    have hlt : rest.length < (c :: cs).length := length_afterBreak_dropWhile_lt _ _ _
    rcases List.mem_cons.mp h with rfl | h
    · exact Nat.lt_add_of_pos_right (Nat.zero_lt_of_lt hlt)
    · have hnumber := ih h
      omega

theorem length_scanFrom_le (number : Nat) (cs : List Char) : (scanFrom number cs).length ≤ cs.length := by
  fun_induction scanFrom number cs with
  | case1 => exact Nat.le_refl _
  | case2 number c cs text rest hempty ih =>
    have hlt : rest.length < (c :: cs).length := length_afterBreak_dropWhile_lt _ _ _
    omega
  | case3 number c cs text rest hempty ih =>
    have hlt : rest.length < (c :: cs).length := length_afterBreak_dropWhile_lt _ _ _
    rw [List.length_cons]
    omega

/-! ### Texts made of lines -/

theorem scanFrom_append_lineFeed {number : Nat} {text cs : List Char} (hne : text ≠ [])
    (htext : ∀ c ∈ text, isBreak c = false) :
    scanFrom number (text ++ '\n' :: cs) = ⟨number, text⟩ :: scanFrom (number + 1) cs := by
  have hrun : ∀ c ∈ text, (!isBreak c) = true := fun c hc => by simp [htext c hc]
  have htake : (text ++ '\n' :: cs).takeWhile (!isBreak ·) = text := by
    rw [List.takeWhile_append_of_pos hrun]; simp [isBreak]
  have hdrop : (text ++ '\n' :: cs).dropWhile (!isBreak ·) = '\n' :: cs := by
    rw [List.dropWhile_append_of_pos hrun]; simp [isBreak]
  obtain ⟨c, cs', hcons⟩ := List.exists_cons_of_ne_nil (List.append_ne_nil_of_left_ne_nil hne ('\n' :: cs))
  rw [hcons] at htake hdrop ⊢
  rw [scanFrom, htake, hdrop, if_neg hne]
  simp [afterBreak]

/-- Lines with a line feed after each are found again, numbered in order. -/
theorem scanFrom_flatMap_lineFeed {texts : List (List Char)}
    (htexts : ∀ text ∈ texts, text ≠ [] ∧ ∀ c ∈ text, isBreak c = false) (number : Nat) :
    scanFrom number (texts.flatMap (· ++ ['\n'])) = (texts.zipIdx number).map fun x => ⟨x.2, x.1⟩ := by
  induction texts generalizing number with
  | nil => simp [scanFrom]
  | cons text texts ih =>
    obtain ⟨hne, htext⟩ := htexts text (by simp)
    have hrest := ih (fun t ht => htexts t (by simp [ht])) (number + 1)
    simp [scanFrom_append_lineFeed hne htext, hrest]

/-! ### Texts put together -/

/-- The number of line breaks in a text; a carriage return and the line feed after it are one break. -/
def breaks : List Char → Nat
  | [] => 0
  | '\r' :: '\n' :: cs => breaks cs + 1
  | c :: cs => breaks cs + if isBreak c then 1 else 0

/-- The text is empty or ends with a line feed, so that what is put behind it begins a line. -/
def Closed (cs : List Char) : Prop := cs = [] ∨ ∃ before, cs = before ++ ['\n']

theorem Closed.of_suffix {cs ds : List Char} (h : Closed ds) (hsuffix : cs <:+ ds) : Closed cs := by
  obtain ⟨start, rfl⟩ := hsuffix
  rcases h with hnil | ⟨before, hbefore⟩
  · exact .inl (List.append_eq_nil_iff.mp hnil).2
  · rcases List.append_eq_append_iff.mp hbefore with ⟨middle, -, hcs⟩ | ⟨middle, -, hcs⟩
    · exact .inr ⟨middle, hcs⟩
    · rcases List.append_eq_singleton_iff.mp hcs.symm with ⟨-, rfl⟩ | ⟨-, rfl⟩
      · exact .inr ⟨[], rfl⟩
      · exact .inl rfl

/-- A closed text that is not empty has a line break. -/
theorem Closed.dropWhile_ne_nil {cs : List Char} (h : Closed cs) (hne : cs ≠ []) :
    cs.dropWhile (!isBreak ·) ≠ [] := by
  intro hnil
  rcases h with rfl | ⟨before, rfl⟩
  · exact hne rfl
  · have hbreak := List.dropWhile_eq_nil_iff.mp hnil '\n' (by simp)
    exact absurd hbreak (by decide)

theorem afterBreak_append {cs : List Char} (h : Closed cs) (hne : cs ≠ []) (ds : List Char) :
    afterBreak (cs ++ ds) = afterBreak cs ++ ds := by
  fun_cases afterBreak cs with
  | case1 cs => rfl
  | case2 c cs hnot =>
    cases cs with
    | nil =>
      -- A carriage return at the very end could be half a break; a closed text has none there.
      rcases h with hnil | ⟨before, hbefore⟩
      · cases hnil
      · rcases List.append_eq_singleton_iff.mp hbefore.symm with ⟨-, hlast⟩ | ⟨-, hlast⟩
        · cases hlast
          rfl
        · cases hlast
    | cons d cs =>
      show afterBreak (c :: d :: (cs ++ ds)) = d :: (cs ++ ds)
      apply afterBreak.eq_2
      intro rest hc hd
      exact hnot cs hc (by rw [(List.cons.inj hd).1])
  | case3 => exact absurd rfl hne

theorem breaks_dropWhile (cs : List Char) : breaks (cs.dropWhile (!isBreak ·)) = breaks cs := by
  induction cs with
  | nil => rfl
  | cons c cs ih =>
    cases hc : isBreak c with
    | true => simp [hc]
    | false =>
      have hbreaks : breaks (c :: cs) = breaks cs := by
        rw [breaks]
        · simp [hc]
        · rintro _ rfl
          exact absurd hc (by decide)
      rw [hbreaks, ← ih]
      simp [hc]

theorem breaks_afterBreak {cs : List Char} (hhead : ∀ c ∈ cs.head?, isBreak c = true) (hne : cs ≠ []) :
    breaks cs = breaks (afterBreak cs) + 1 := by
  fun_cases afterBreak cs with
  | case1 cs => rw [breaks]
  | case2 c cs hnot =>
    rw [breaks]
    · rw [if_pos (hhead c rfl)]
    · exact hnot
  | case3 => exact absurd rfl hne

/-- The first line of a closed text is the same with a text put behind, and so is what follows that line. -/
theorem Closed.first_line {cs : List Char} (h : Closed cs) (hne : cs ≠ []) (ds : List Char) :
    (cs ++ ds).takeWhile (!isBreak ·) = cs.takeWhile (!isBreak ·) ∧
      afterBreak ((cs ++ ds).dropWhile (!isBreak ·)) = afterBreak (cs.dropWhile (!isBreak ·)) ++ ds ∧
      breaks cs = breaks (afterBreak (cs.dropWhile (!isBreak ·))) + 1 ∧
      Closed (afterBreak (cs.dropWhile (!isBreak ·))) := by
  have hrest := h.dropWhile_ne_nil hne
  have hclosed := h.of_suffix (List.dropWhile_suffix (!isBreak ·))
  refine ⟨?_, ?_, ?_, hclosed.of_suffix (afterBreak_suffix _)⟩
  · rw [List.takeWhile_append, if_neg]
    intro hlength
    have hsplit := congrArg List.length (List.takeWhile_append_dropWhile (p := (!isBreak ·)) (l := cs))
    rw [List.length_append, hlength] at hsplit
    exact hrest (List.eq_nil_of_length_eq_zero (by omega))
  · rw [List.dropWhile_append, if_neg (by simpa using hrest), afterBreak_append hclosed hrest]
  · rw [← breaks_dropWhile cs]
    apply breaks_afterBreak _ hrest
    intro c hc
    have hhead := List.head?_dropWhile_not (!isBreak ·) cs
    rw [Option.mem_def.mp hc] at hhead
    simpa using hhead

/-- The lines of a text behind a closed one are numbered on from it. -/
theorem scanFrom_append {cs : List Char} (h : Closed cs) (number : Nat) (ds : List Char) :
    scanFrom number (cs ++ ds) = scanFrom number cs ++ scanFrom (number + breaks cs) ds := by
  fun_induction scanFrom number cs with
  | case1 number => rfl
  | case2 number c cs text rest hempty ih =>
    obtain ⟨htake, hafter, hbreaks, hrest⟩ := h.first_line (List.cons_ne_nil c cs) ds
    rw [List.cons_append] at htake hafter ⊢
    rw [scanFrom, htake, hafter, if_pos hempty, ih hrest, hbreaks, Nat.add_right_comm, Nat.add_assoc]
  | case3 number c cs text rest hempty ih =>
    obtain ⟨htake, hafter, hbreaks, hrest⟩ := h.first_line (List.cons_ne_nil c cs) ds
    rw [List.cons_append] at htake hafter ⊢
    rw [scanFrom, htake, hafter, if_neg hempty, ih hrest, hbreaks, Nat.add_right_comm, Nat.add_assoc]
    rfl

/-- The lines of a closed text have numbers that the breaks in it allow. -/
theorem number_lt_of_mem_scanFrom {cs : List Char} (h : Closed cs) {number : Nat} {l : Line}
    (hl : l ∈ scanFrom number cs) : l.number < number + breaks cs := by
  fun_induction scanFrom number cs with
  | case1 number => simp at hl
  | case2 number c cs text rest hempty ih =>
    obtain ⟨-, -, (hbreaks : _ = breaks rest + 1), hrest⟩ := h.first_line (List.cons_ne_nil c cs) []
    have hlt := ih hrest hl
    omega
  | case3 number c cs text rest hempty ih =>
    obtain ⟨-, -, (hbreaks : _ = breaks rest + 1), hrest⟩ := h.first_line (List.cons_ne_nil c cs) []
    rcases List.mem_cons.mp hl with rfl | hl
    · show number < number + _
      omega
    · have hlt := ih hrest hl
      omega

/-- The line with `d` lines put above it. -/
def below (d : Nat) (l : Line) : Line := { l with number := l.number + d }

theorem scanFrom_add (number d : Nat) (cs : List Char) :
    scanFrom (number + d) cs = (scanFrom number cs).map (below d) := by
  fun_induction scanFrom number cs with
  | case1 number => rw [scanFrom]; rfl
  | case2 number c cs text rest hempty ih =>
    rw [scanFrom, if_pos hempty, Nat.add_right_comm]
    exact ih
  | case3 number c cs text rest hempty ih =>
    rw [scanFrom, if_neg hempty, Nat.add_right_comm, List.map_cons]
    exact congrArg _ ih

/-- The lines of two texts put together. -/
theorem scan_append {cs : List Char} (h : Closed cs) (ds : List Char) :
    scan (cs ++ ds) = scan cs ++ (scan ds).map (below (breaks cs)) := by
  rw [scan, scanFrom_append h, scanFrom_add]
  rfl

/-- A line put in between two texts. -/
theorem scan_append_line {cs text : List Char} (h : Closed cs) (hne : text ≠ [])
    (htext : ∀ c ∈ text, isBreak c = false) (ds : List Char) :
    scan (cs ++ (text ++ '\n' :: ds)) =
      scan cs ++ [⟨breaks cs + 1, text⟩] ++ (scan ds).map (below (breaks cs + 1)) := by
  have hline : scan (text ++ '\n' :: ds) = ⟨1, text⟩ :: (scan ds).map (below 1) := by
    rw [scan, scanFrom_append_lineFeed hne htext, scanFrom_add]
    rfl
  have hbelow : below (breaks cs) ∘ below 1 = below (breaks cs + 1) := by
    funext l
    show (⟨l.number + 1 + breaks cs, l.text⟩ : Line) = ⟨l.number + (breaks cs + 1), l.text⟩
    rw [Nat.add_assoc, Nat.add_comm 1]
  rw [scan_append h, hline, List.map_cons, List.map_map, hbelow, List.append_assoc, below, Nat.add_comm 1]
  rfl

/-! ### The first lines of a text -/

/-- The line break that heads a text. -/
def headBreak : List Char → List Char
  | '\r' :: '\n' :: _ => ['\r', '\n']
  | c :: _ => [c]
  | [] => []

theorem headBreak_append_afterBreak (cs : List Char) : headBreak cs ++ afterBreak cs = cs := by
  fun_cases afterBreak cs with
  | case1 cs => rfl
  | case2 c cs hnot =>
    rw [headBreak.eq_2 c cs hnot]
    rfl
  | case3 => rfl

/-- Behind a break only the beginning of what was there is put back, so it makes no longer break. -/
theorem afterBreak_headBreak_append {cs ds : List Char} (hds : ds <+: afterBreak cs) :
    afterBreak (headBreak cs ++ ds) = ds := by
  fun_cases afterBreak cs with
  | case1 cs => rfl
  | case2 c cs hnot =>
    rw [afterBreak.eq_2 c cs hnot] at hds
    rw [headBreak.eq_2 c cs hnot]
    apply afterBreak.eq_2
    intro rest hc (hrest : ds = '\n' :: rest)
    obtain ⟨after, hafter⟩ := hds
    apply hnot (rest ++ after) hc
    rw [← hafter, hrest]
    rfl
  | case3 =>
    rw [List.prefix_nil.mp hds]
    rfl

/-- The first `n` lines of a text, each with its break. -/
def first : (n : Nat) → List Char → List Char
  | 0, _ => []
  | n + 1, cs =>
    let tail := cs.dropWhile (!isBreak ·)
    cs.takeWhile (!isBreak ·) ++ (headBreak tail ++ first n (afterBreak tail))

theorem first_isPrefix (n : Nat) (cs : List Char) : first n cs <+: cs := by
  induction n generalizing cs with
  | zero => exact List.nil_prefix
  | succ n ih =>
    obtain ⟨rest, hrest⟩ := ih (afterBreak (cs.dropWhile (!isBreak ·)))
    refine ⟨rest, ?_⟩
    rw [first, List.append_assoc, List.append_assoc, hrest, headBreak_append_afterBreak]
    exact List.takeWhile_append_dropWhile

/-- The first line is found in the first lines, and behind its break the others. -/
theorem first_line_first (n : Nat) (cs : List Char) :
    (first (n + 1) cs).takeWhile (!isBreak ·) = cs.takeWhile (!isBreak ·) ∧
      afterBreak ((first (n + 1) cs).dropWhile (!isBreak ·)) =
        first n (afterBreak (cs.dropWhile (!isBreak ·))) := by
  have hrun := Text.longestRun_takeWhile (!isBreak ·) cs
  have hrest := first_isPrefix n (afterBreak (cs.dropWhile (!isBreak ·)))
  have htail : headBreak (cs.dropWhile (!isBreak ·)) ++ first n (afterBreak (cs.dropWhile (!isBreak ·))) <+:
      cs.dropWhile (!isBreak ·) := by
    have hpart := (List.prefix_append_right_inj (headBreak (cs.dropWhile (!isBreak ·)))).mpr hrest
    rwa [headBreak_append_afterBreak] at hpart
  obtain ⟨htake, hdrop⟩ := Text.longestRun_iff.mp ⟨rfl, hrun.all, hrun.stops.of_isPrefix htail⟩
  rw [first, htake, hdrop]
  exact ⟨rfl, afterBreak_headBreak_append hrest⟩

/-- The scanner takes the first line, unless it is empty, and goes on behind its break. -/
theorem scanFrom_eq (number : Nat) (cs : List Char) :
    scanFrom number cs =
      (if cs.takeWhile (!isBreak ·) = [] then [] else [⟨number, cs.takeWhile (!isBreak ·)⟩]) ++
        scanFrom (number + 1) (afterBreak (cs.dropWhile (!isBreak ·))) := by
  cases cs with
  | nil => rw [scanFrom, List.takeWhile_nil, List.dropWhile_nil, afterBreak, scanFrom, if_pos rfl, List.append_nil]
  | cons c cs =>
    rw [scanFrom]
    split <;> rfl

theorem scanFrom_first (n number : Nat) (cs : List Char) :
    scanFrom number (first n cs) = (scanFrom number cs).takeWhile (·.number < number + n) := by
  induction n generalizing number cs with
  | zero =>
    rw [first, scanFrom]
    cases hlines : scanFrom number cs with
    | nil => rfl
    | cons l ls =>
      have hle : number ≤ l.number := number_le_of_mem_scanFrom (hlines ▸ List.mem_cons_self)
      rw [List.takeWhile_cons_of_neg]
      simpa using hle
  | succ n ih =>
    obtain ⟨hline, hrest⟩ := first_line_first n cs
    rw [scanFrom_eq number (first (n + 1) cs), hline, hrest, ih, scanFrom_eq number cs, Nat.add_right_comm]
    split
    · rfl
    · rw [List.singleton_append, List.singleton_append, List.takeWhile_cons_of_pos]
      · rfl
      · simp

/-- The lines of the first lines are those up to the number of them. -/
theorem scan_first (n : Nat) (cs : List Char) : scan (first n cs) = (scan cs).takeWhile (·.number ≤ n) := by
  rw [scan, scanFrom_first, scan, Nat.add_comm]
  simp only [Nat.lt_succ_iff]

end Line
end StackScript
