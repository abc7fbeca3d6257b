import StackScript.Proofs.Assembly.Script

/-!
# Line breaks

A line may end with a carriage return, with a line feed, or with both. Which of them it is makes no difference:
`Line.unified` writes a line feed for every break, and the scanner finds in a text what a plain split of the unified
text at its line feeds gives (`scan_eq_pieces`), less the empty pieces. Main statement (`line_breaks_unified`): so a
script compiles as its unified text does, to the same program or with the same error.

For the same reason a text can be cut wherever a line begins (`scanFrom_append_of_cut`), whatever break is before.
-/

namespace StackScript
namespace Line

/-! ### The unified text -/

/-- The text with one line feed for each carriage return that has a line feed behind it, and that line feed. -/
def joinPairs : List Char → List Char
  | '\r' :: '\n' :: cs => '\n' :: joinPairs cs
  | c :: cs => c :: joinPairs cs
  | [] => []

/-- The text with a line feed for every line break: first for the pairs, then for the carriage returns left. -/
def unified (cs : List Char) : List Char := (joinPairs cs).map fun c => if c = '\r' then '\n' else c

theorem isBreak_iff {c : Char} : isBreak c = true ↔ c = '\r' ∨ c = '\n' := by
  simp [isBreak]

theorem unified_cons_of_ne {c : Char} (hne : c ≠ '\r') (cs : List Char) : unified (c :: cs) = c :: unified cs := by
  have hjoin : joinPairs (c :: cs) = c :: joinPairs cs := by
    apply joinPairs.eq_2
    intro rest hreturn _
    exact hne hreturn
  rw [unified, hjoin, List.map_cons, if_neg hne]
  rfl

theorem ne_return_of_not_isBreak {c : Char} (hc : isBreak c = false) : c ≠ '\r' := by
  rintro rfl
  exact absurd hc (by decide)

/-- Characters that end no line stay as they are. -/
theorem unified_append {w : List Char} (hw : ∀ c ∈ w, isBreak c = false) (rest : List Char) :
    unified (w ++ rest) = w ++ unified rest := by
  induction w with
  | nil => rfl
  | cons c w ih =>
    obtain ⟨hc, hw⟩ := List.forall_mem_cons.mp hw
    rw [List.cons_append, unified_cons_of_ne (ne_return_of_not_isBreak hc), ih hw]
    rfl

/-- A line break becomes a line feed. -/
theorem unified_of_break {cs : List Char} (hhead : ∀ c ∈ cs.head?, isBreak c = true) (hne : cs ≠ []) :
    unified cs = '\n' :: unified (afterBreak cs) := by
  fun_cases afterBreak cs with
  | case1 cs => rfl
  | case2 c cs hnot =>
    rw [unified, joinPairs.eq_2 c cs hnot]
    rcases isBreak_iff.mp (hhead c rfl) with rfl | rfl <;> rfl
  | case3 => exact absurd rfl hne

/-- No carriage return is left. -/
theorem return_not_mem_unified (cs : List Char) : '\r' ∉ unified cs := by
  intro hmem
  obtain ⟨c, -, hc⟩ := List.mem_map.mp hmem
  split at hc
  · exact absurd hc (by decide)
  · next hne => exact hne hc

theorem unified_of_no_return {cs : List Char} (h : '\r' ∉ cs) : unified cs = cs := by
  induction cs with
  | nil => rfl
  | cons c cs ih =>
    obtain ⟨hne, hcs⟩ := not_or.mp (mt List.mem_cons.mpr h)
    rw [unified_cons_of_ne (Ne.symm hne), ih hcs]

theorem unified_unified (cs : List Char) : unified (unified cs) = unified cs :=
  unified_of_no_return (return_not_mem_unified cs)

/-! ### Lines as pieces -/

/-- The pieces between the line feeds of the unified text. -/
def pieces (cs : List Char) : List (List Char) := (unified cs).splitOn '\n'

theorem pieces_of_no_break {w : List Char} (hw : ∀ c ∈ w, isBreak c = false) : pieces w = [w] := by
  have hunified := unified_append hw []
  rw [List.append_nil, show unified [] = [] from rfl, List.append_nil] at hunified
  rw [pieces, hunified]
  apply List.splitOn_eq_singleton
  intro hmem
  exact absurd (hw _ hmem) (by decide)

theorem pieces_append_break {w rest : List Char} (hw : ∀ c ∈ w, isBreak c = false)
    (hhead : ∀ c ∈ rest.head?, isBreak c = true) (hne : rest ≠ []) :
    pieces (w ++ rest) = w :: pieces (afterBreak rest) := by
  rw [pieces, unified_append hw, unified_of_break hhead hne]
  apply List.splitOnP_append_cons_of_forall_mem
  · intro d hd
    apply beq_eq_false_iff_ne.mpr
    rintro rfl
    exact absurd (hw _ hd) (by decide)
  · rfl

/-- The lines that a text is split into, numbered from `number`, less the empty ones. -/
def splitFrom (number : Nat) (cs : List Char) : List Line := (numbered number (pieces cs)).filter (·.text ≠ [])

/-- The split goes as the scanner does: the first line, unless it is empty, and then the text behind its break. -/
theorem splitFrom_eq (number : Nat) (cs : List Char) :
    splitFrom number cs =
      (if cs.takeWhile (!isBreak ·) = [] then [] else [⟨number, cs.takeWhile (!isBreak ·)⟩]) ++
        splitFrom (number + 1) (afterBreak (cs.dropWhile (!isBreak ·))) := by
  obtain ⟨hsplit, hrun, hstops⟩ := Text.longestRun_takeWhile (!isBreak ·) cs
  have hline : ∀ c ∈ cs.takeWhile (!isBreak ·), isBreak c = false := by
    intro c hc
    simpa using hrun c hc
  have hhead : ∀ c ∈ (cs.dropWhile (!isBreak ·)).head?, isBreak c = true := by
    intro c hc
    simpa using hstops c hc
  have hpieces : splitFrom number cs = (⟨number, cs.takeWhile (!isBreak ·)⟩ ::
      numbered (number + 1) (pieces (afterBreak (cs.dropWhile (!isBreak ·))))).filter (·.text ≠ []) := by
    by_cases hend : cs.dropWhile (!isBreak ·) = []
    · -- Behind a line without a break there is an empty piece at most.
      rw [hend, List.append_nil] at hsplit
      have hone := pieces_of_no_break hline
      rw [← hsplit] at hone
      rw [splitFrom, hone, hend, ← hsplit]
      simp [numbered, afterBreak, show pieces [] = [[]] from rfl, List.filter_cons]
    · have hmore := pieces_append_break hline hhead hend
      rw [← hsplit] at hmore
      rw [splitFrom, hmore]
      rfl
  rw [hpieces, List.filter_cons]
  by_cases hempty : cs.takeWhile (!isBreak ·) = []
  · simp [hempty, splitFrom]
  · simp [hempty, splitFrom]

theorem scanFrom_eq_splitFrom (number : Nat) (cs : List Char) : scanFrom number cs = splitFrom number cs := by
  fun_induction scanFrom number cs with
  | case1 number => rfl
  | case2 number c cs text rest hempty ih =>
    rw [splitFrom_eq, if_pos hempty]
    exact ih
  | case3 number c cs text rest hempty ih =>
    rw [splitFrom_eq, if_neg hempty]
    exact congrArg (⟨number, text⟩ :: ·) ih

/-- The scanner hands on the pieces that are not empty, each with its number. -/
theorem scan_eq_pieces (cs : List Char) : scan cs = (numbered 1 (pieces cs)).filter (·.text ≠ []) :=
  scanFrom_eq_splitFrom 1 cs

theorem scanFrom_unified (number : Nat) (cs : List Char) : scanFrom number (unified cs) = scanFrom number cs := by
  rw [scanFrom_eq_splitFrom, scanFrom_eq_splitFrom, splitFrom, pieces, unified_unified]
  rfl

/-! ### Cutting a text between two lines -/

/-- A line can begin between the two texts: the first is empty or ends with a line break, and no break is cut in
two. -/
structure Cut (before rest : List Char) : Prop where
  begins : ∀ c ∈ before.getLast?, isBreak c = true
  whole : before.getLast? = some '\r' → rest.head? ≠ some '\n'

theorem Closed.cut {before : List Char} (h : Closed before) (rest : List Char) : Cut before rest := by
  rcases h with rfl | ⟨front, rfl⟩
  · exact ⟨nofun, nofun⟩
  · constructor
    · simp [isBreak]
    · simp

theorem joinPairs_append {before rest : List Char} (hwhole : before.getLast? = some '\r' → rest.head? ≠ some '\n') :
    joinPairs (before ++ rest) = joinPairs before ++ joinPairs rest := by
  fun_induction joinPairs before with
  | case1 cs ih =>
    have hcs : cs.getLast? = some '\r' → rest.head? ≠ some '\n' := by
      intro hlast
      exact hwhole (List.mem_getLast?_cons (List.mem_getLast?_cons hlast))
    exact congrArg ('\n' :: ·) (ih hcs)
  | case2 c cs hnot ih =>
    have hcs : cs.getLast? = some '\r' → rest.head? ≠ some '\n' := by
      intro hlast
      exact hwhole (List.mem_getLast?_cons hlast)
    rw [List.cons_append, joinPairs.eq_2, ih hcs]
    · rfl
    · intro tail hc htail
      cases cs with
      | nil =>
        apply hwhole
        · rw [hc]
          rfl
        · rw [show rest = '\n' :: tail from htail]
          rfl
      | cons d cs =>
        obtain ⟨rfl, -⟩ := List.cons.inj htail
        exact hnot cs hc rfl
  | case3 => rfl

theorem unified_append_of_whole {before rest : List Char}
    (hwhole : before.getLast? = some '\r' → rest.head? ≠ some '\n') :
    unified (before ++ rest) = unified before ++ unified rest := by
  rw [unified, joinPairs_append hwhole, List.map_append]
  rfl

/-- Each line break counts once, whatever it is. -/
theorem breaks_unified (cs : List Char) : breaks (unified cs) = breaks cs := by
  fun_induction breaks cs with
  | case1 => rfl
  | case2 cs ih => exact congrArg (· + 1) ih
  | case3 c cs hnot ih =>
    cases hc : isBreak c with
    | true =>
      have hunified : unified (c :: cs) = '\n' :: unified (afterBreak (c :: cs)) :=
        unified_of_break (by simpa using hc) (List.cons_ne_nil c cs)
      rw [hunified, afterBreak.eq_2 c cs hnot, if_pos rfl]
      exact congrArg (· + 1) ih
    | false =>
      have hne := ne_return_of_not_isBreak hc
      rw [unified_cons_of_ne hne, breaks.eq_3, ih, hc]
      intro _ hreturn _
      exact hne hreturn

/-- A text that ends with a line break is closed when it is unified. -/
theorem closed_unified {cs : List Char} (hbreak : ∀ c ∈ cs.getLast?, isBreak c = true) : Closed (unified cs) := by
  cases hlast : cs.getLast? with
  | none =>
    rw [List.getLast?_eq_none_iff.mp hlast]
    exact .inl rfl
  | some c =>
    have hc := isBreak_iff.mp (hbreak c hlast)
    obtain ⟨front, rfl⟩ := List.getLast?_eq_some_iff.mp hlast
    by_cases hpair : front.getLast? = some '\r' ∧ c = '\n'
    · obtain ⟨hreturn, rfl⟩ := hpair
      obtain ⟨front, rfl⟩ := List.getLast?_eq_some_iff.mp hreturn
      refine .inr ⟨unified front, ?_⟩
      rw [List.append_assoc, unified_append_of_whole (by simp)]
      rfl
    · refine .inr ⟨unified front, ?_⟩
      rw [unified_append_of_whole]
      · rcases hc with rfl | rfl <;> rfl
      · intro hreturn hfeed
        exact hpair ⟨hreturn, by simpa using hfeed⟩

/-- The lines of a text behind a cut are numbered on from the lines before it. -/
theorem scanFrom_append_of_cut {before rest : List Char} (h : Cut before rest) (number : Nat) :
    scanFrom number (before ++ rest) = scanFrom number before ++ scanFrom (number + breaks before) rest := by
  rw [← scanFrom_unified number (before ++ rest), unified_append_of_whole h.whole,
    scanFrom_append (closed_unified h.begins), scanFrom_unified, scanFrom_unified, breaks_unified]

end Line

/-- The lines of a script are the pieces, less the empty ones, of its text with a line feed for every break, split at
the line feeds; each has the number of its piece, counted from one. So the script compiles as that text does: to the
same program, or with the same error on the same line. -/
theorem line_breaks_unified (set : InstrSet) (script : String) :
    Line.scan script.toList =
        (Line.numbered 1 ((Line.unified script.toList).splitOn '\n')).filter (·.text ≠ []) ∧
      Program.compile set (String.ofList (Line.unified script.toList)) = Program.compile set script := by
  refine ⟨Line.scan_eq_pieces script.toList, ?_⟩
  unfold Program.compile
  rw [String.toList_ofList, Line.scan, Line.scanFrom_unified]
  rfl

example : Line.unified "a\r\r\n\n\rb\r".toList = "a\n\n\n\nb\n".toList := by decide

end StackScript
