import StackScript.Proofs.Assembly.Joined
import StackScript.Proofs.Assembly.Labels
import StackScript.Proofs.Assembly.LineBreaks

/-!
# Layout

Blanks before a line, blanks and a comment behind it, and lines that hold nothing else do not change a program.
`Edit` says what such a change of a text is, and `Edits` is any number of them in turn.

A line that has been edited is read as it was (`parse_append_ending`, `parse_blanks_append`), and a line that says
nothing might as well not be there. So the lines before and after an edit are `Line.Alike`: they make the same
program, up to their numbers. Main statement (`layout_preserved`): the edited script compiles to the same code, and
the recorded lines are moved by as many lines as were put in above them.
-/

namespace StackScript

open Grammar Text

/-! ### Edits -/

namespace Line

/-- `line` is a line, without its break, of the text `before ++ line ++ after`. -/
structure IsLine (before line after : List Char) : Prop where
  cut : Cut before (line ++ after)
  no_break : ∀ c ∈ line, isBreak c = false
  ends : ∀ c ∈ after.head?, isBreak c = true

/-- A change of the layout takes a text to another one. The numbers are those of the lines that it puts in, of which
there is one at most. -/
inductive Edit : List Char → List Nat → List Char → Prop
  /-- Blanks and a comment behind a line. -/
  | append {before line after ending : List Char} (isLine : IsLine before line after) (ends : Ending ending)
      (no_break : ∀ c ∈ ending, isBreak c = false) :
      Edit (before ++ (line ++ after)) [] (before ++ ((line ++ ending) ++ after))
  /-- Blanks before a line. -/
  | indent {before line after gap : List Char} (isLine : IsLine before line after) (blanks : Blanks gap)
      (no_break : ∀ c ∈ gap, isBreak c = false) :
      Edit (before ++ (line ++ after)) [] (before ++ ((gap ++ line) ++ after))
  /-- A line of blanks and a comment, at the start of the text or behind a line feed. -/
  | insert {before rest line : List Char} (closed : Closed before) (ends : Ending line)
      (no_break : ∀ c ∈ line, isBreak c = false) :
      Edit (before ++ rest) [breaks before + 1] (before ++ (line ++ '\n' :: rest))

/-- Changes of the layout, one after the other, with the numbers of the lines that they put in. Each number is that
at the time when the line is put in. -/
inductive Edits : List Char → List Nat → List Char → Prop
  | refl (cs : List Char) : Edits cs [] cs
  | cons {cs ds es : List Char} {ns ns' : List Nat} (first : Edit cs ns ds) (others : Edits ds ns' es) :
      Edits cs (ns ++ ns') es

/-- How many lines, put in one after the other with the numbers `ns`, come above the line that has the number `k`
before. -/
def insertedAbove : (ns : List Nat) → (k : Nat) → Nat
  | [], _ => 0
  | n :: ns, k => if n ≤ k then insertedAbove ns (k + 1) + 1 else insertedAbove ns k

theorem insertedAbove_append (ns ns' : List Nat) (k : Nat) :
    insertedAbove (ns ++ ns') k = insertedAbove ns k + insertedAbove ns' (k + insertedAbove ns k) := by
  induction ns generalizing k with
  | nil => simp [insertedAbove]
  | cons n ns ih =>
    rw [List.cons_append, insertedAbove, insertedAbove, ih, ih]
    split
    · rw [Nat.add_right_comm, Nat.add_assoc k, Nat.add_comm 1]
    · rfl

/-! ### Lines of a text -/

/-- The line as the scanner hands it on: not at all, if it is empty. -/
def handedOn (l : Line) : List Line := if l.text = [] then [] else [l]

theorem scanFrom_line {line after : List Char} (hline : ∀ c ∈ line, isBreak c = false)
    (hafter : ∀ c ∈ after.head?, isBreak c = true) (number : Nat) :
    scanFrom number (line ++ after) = handedOn ⟨number, line⟩ ++ scanFrom (number + 1) (afterBreak after) := by
  have hrun : LongestRun (!isBreak ·) (line ++ after) line after := by
    refine ⟨rfl, fun c hc => ?_, fun c hc => ?_⟩
    · simp [hline c hc]
    · simp [hafter c hc]
  obtain ⟨htake, hdrop⟩ := longestRun_iff.mp hrun
  rw [scanFrom_eq, htake, hdrop]
  rfl

namespace IsLine

variable {before line line' after : List Char}

/-- The lines of a text around one of them. -/
theorem scan_eq (h : IsLine before line after) :
    scan (before ++ (line ++ after)) =
      scan before ++ (handedOn ⟨breaks before + 1, line⟩ ++ scanFrom (breaks before + 2) (afterBreak after)) := by
  rw [scan, scanFrom_append_of_cut h.cut, scanFrom_line h.no_break h.ends, Nat.add_comm 1]
  rfl

/-- Another text without a break can take the place of a line, unless the line would vanish. -/
theorem replace (h : IsLine before line after) (hno : ∀ c ∈ line', isBreak c = false) (hnil : line' = [] → line = []) :
    IsLine before line' after where
  cut := by
    refine ⟨h.cut.begins, fun hreturn hfeed => ?_⟩
    cases line' with
    | nil =>
      apply h.cut.whole hreturn
      rw [hnil rfl]
      exact hfeed
    | cons c cs =>
      cases hfeed
      exact absurd (hno '\n' List.mem_cons_self) (by decide)
  no_break := hno
  ends := h.ends

end IsLine

end Line

/-! ### Edited lines are read as before -/

namespace Grammar

variable {set : InstrSet} {cs e e' g : List Char} {label : Option String} {body : Option (String × Operands)}
  {i? : Option Instr}

/-- What follows a comment belongs to it. -/
theorem Ending.append (h : Ending e) (h' : Ending e') : Ending (e ++ e') := by
  cases h with
  | mk hg hc =>
    cases hc with
    | absent =>
      rw [List.append_nil]
      exact h'.blanks_append hg
    | present tail =>
      rw [List.append_assoc]
      exact .mk hg (.present (tail ++ e'))

theorem SpellsLine.append_ending (h : SpellsLine cs label body) (he : Ending e) : SpellsLine (cs ++ e) label body := by
  cases h with
  | mk hg hl hg' hb hend =>
    rw [List.append_assoc]
    exact .mk hg hl hg' hb (hend.append he)

theorem SpellsLine.blanks_append (h : SpellsLine cs label body) (hg : Blanks g) : SpellsLine (g ++ cs) label body := by
  cases h with
  | @mk g₀ l g' b e _ _ hg₀ hl hg' hb hend =>
    have htext : g ++ (g₀ ++ l ++ g' ++ b ++ e) = (g ++ g₀) ++ l ++ g' ++ b ++ e := by simp
    rw [htext]
    exact .mk (hg.append hg₀) hl hg' hb hend

theorem parse_append_ending (h : Statement.parse set cs = ⟨label, .ok i?⟩) (he : Ending e) :
    Statement.parse set (cs ++ e) = ⟨label, .ok i?⟩ := by
  obtain ⟨body, hspells, hi⟩ := spellsLine_of_parse h
  exact parse_of_spellsLine (hspells.append_ending he) hi

theorem parse_blanks_append (h : Statement.parse set cs = ⟨label, .ok i?⟩) (hg : Blanks g) :
    Statement.parse set (g ++ cs) = ⟨label, .ok i?⟩ := by
  obtain ⟨body, hspells, hi⟩ := spellsLine_of_parse h
  exact parse_of_spellsLine (hspells.blanks_append hg) hi

/-- A line that is only an ending says nothing. -/
theorem parse_of_ending (he : Ending e) : Statement.parse set e = ⟨none, .ok none⟩ := by
  have hspells : SpellsLine e none none := SpellsLine.mk blanks_nil .absent blanks_nil .absent he
  exact parse_of_spellsLine hspells .none

end Grammar

/-! ### Lines that amount to the same -/

namespace Line

open Assembly

/-- The lines declare the same labels at the same positions and give the same instructions, and if the one can be
read, so can the others. -/
structure Alike (set : InstrSet) (ls ls' : List Line) : Prop where
  readable : (∀ l ∈ ls', l.Readable set) ↔ ∀ l ∈ ls, l.Readable set
  labels : ls'.filterMap (label? set) = ls.filterMap (label? set)
  placed : ls'.filterMap (placed? set) = ls.filterMap (placed? set)
  position : ∀ name, (ofLines set ls').position? name = (ofLines set ls).position? name

namespace Alike

variable {set : InstrSet} {ls ls' ls₁ ls₁' ls₂ ls₂' : List Line}

theorem refl (ls : List Line) : Alike set ls ls := ⟨Iff.rfl, rfl, rfl, fun _ => rfl⟩

theorem symm (h : Alike set ls ls') : Alike set ls' ls :=
  ⟨h.readable.symm, h.labels.symm, h.placed.symm, fun name => (h.position name).symm⟩

theorem trans (h : Alike set ls ls₁) (h' : Alike set ls₁ ls₂) : Alike set ls ls₂ :=
  ⟨h'.readable.trans h.readable, h'.labels.trans h.labels, h'.placed.trans h.placed,
    fun name => (h'.position name).trans (h.position name)⟩

theorem append (h : Alike set ls₁ ls₁') (h' : Alike set ls₂ ls₂') : Alike set (ls₁ ++ ls₂) (ls₁' ++ ls₂') where
  readable := by rw [List.forall_mem_append, List.forall_mem_append, h.readable, h'.readable]
  labels := by rw [List.filterMap_append, List.filterMap_append, h.labels, h'.labels]
  placed := by rw [List.filterMap_append, List.filterMap_append, h.placed, h'.placed]
  position name := by rw [position?_append, position?_append, h.placed, h.position, h'.position]

/-- Of a line it is its number that counts, and what is read there. -/
theorem of_parse_eq {number : Nat} {text text' : List Char}
    (h : Statement.parse set text' = Statement.parse set text) : Alike set [⟨number, text⟩] [⟨number, text'⟩] := by
  have hlabel : label? set ⟨number, text'⟩ = label? set ⟨number, text⟩ := by
    rw [label?, label?, h]
  have hplaced : placed? set ⟨number, text'⟩ = placed? set ⟨number, text⟩ := by
    rw [placed?, placed?, instr?, instr?, h]
  constructor
  · rw [List.forall_mem_singleton, List.forall_mem_singleton, Readable, Readable, h]
  · rw [List.filterMap_cons, List.filterMap_cons, hlabel]
  · rw [List.filterMap_cons, List.filterMap_cons, hplaced]
  · intro name
    have hone (l : Line) : (ofLines set [l]).position? name = _ := position?_after {} l name
    rw [hone, hone, hlabel]

/-- A line that says nothing might as well not be there. -/
theorem of_silent {l : Line} (h : Statement.parse set l.text = ⟨none, .ok none⟩) : Alike set [] [l] := by
  have hlabel : l.label? set = none := by rw [label?, h]
  have hplaced : l.placed? set = none := by
    rw [placed?, instr?, h]
    rfl
  constructor
  · rw [List.forall_mem_singleton, Readable, h]
    simp
  · rw [List.filterMap_cons, hlabel]
  · rw [List.filterMap_cons, hplaced]
  · intro name
    have hone : (ofLines set [l]).position? name = _ := position?_after {} l name
    rw [hone, if_neg (by simp [hlabel])]
    rfl

/-- Nor does it matter that the scanner leaves out empty lines. -/
theorem handedOn (l : Line) : Alike set l.handedOn [l] := by
  unfold Line.handedOn
  split
  · next hempty =>
    apply of_silent
    rw [hempty]
    exact parse_of_ending (.mk blanks_nil .absent)
  · exact refl [l]

/-- Lines that amount to the same make the same program. -/
theorem linkable (h : Alike set ls ls') (hls : Linkable set ls) : Linkable set ls' := by
  rw [linkable_iff] at hls ⊢
  rw [h.labels, h.placed, h.readable]
  exact hls

theorem program_eq (h : Alike set ls ls') : (ofLines set ls').program = (ofLines set ls).program := by
  have hfilled : (ofLines set ls').filled = (ofLines set ls).filled := by
    funext i
    exact filled_eq_of_position?_eq fun t _ => h.position t.label
  have hcode : (ofLines set ls').program.code = (ofLines set ls).program.code := by
    apply Array.toList_inj.mp
    rw [code_program_ofLines, code_program_ofLines, h.placed, hfilled]
  have hlines : (ofLines set ls').program.lines = (ofLines set ls).program.lines := by
    apply Array.toList_inj.mp
    rw [lines_program_ofLines, lines_program_ofLines, h.placed]
  exact congrArg₂ Program.mk hcode hlines

end Alike

/-! ### Edited texts -/

/-- The lines `ls'` make the program of the lines `ls`, in which the recorded lines are moved by the lines put in with
the numbers `ns`. -/
structure Relaid (set : InstrSet) (ns : List Nat) (ls ls' : List Line) : Prop where
  linkable : Linkable set ls'
  code : (ofLines set ls').program.code = (ofLines set ls).program.code
  lines : (ofLines set ls').program.lines = (ofLines set ls).program.lines.map fun k => k + insertedAbove ns k

variable {set : InstrSet} {ns ns' : List Nat} {ls ls₁ ls₂ : List Line} {cs ds before line line' after rest : List Char}

theorem Alike.relaid (h : Alike set ls ls₁) (hls : Linkable set ls) : Relaid set [] ls ls₁ where
  linkable := h.linkable hls
  code := by rw [h.program_eq]
  lines := by
    rw [h.program_eq]
    simp [insertedAbove]

theorem Relaid.trans (h : Relaid set ns ls ls₁) (h' : Relaid set ns' ls₁ ls₂) : Relaid set (ns ++ ns') ls ls₂ where
  linkable := h'.linkable
  code := h'.code.trans h.code
  lines := by
    rw [h'.lines, h.lines, Array.map_map]
    apply Array.map_congr_left
    intro k _
    rw [insertedAbove_append, ← Nat.add_assoc]
    rfl

/-- A line takes the place of one that is read as it is. -/
theorem IsLine.relaid (h : IsLine before line after) (h' : IsLine before line' after)
    (hparse : ∀ label i?, Statement.parse set line = ⟨label, .ok i?⟩ → Statement.parse set line' = ⟨label, .ok i?⟩)
    (hls : Linkable set (scan (before ++ (line ++ after)))) :
    Relaid set [] (scan (before ++ (line ++ after))) (scan (before ++ (line' ++ after))) := by
  rw [h.scan_eq] at hls ⊢
  rw [h'.scan_eq]
  apply Alike.relaid _ hls
  apply (Alike.refl _).append
  apply Alike.append _ (Alike.refl _)
  -- As the empty line can be read too, it makes no difference whether the scanner hands it on.
  have hread : ∀ l ∈ [(⟨breaks before + 1, line⟩ : Line)], l.Readable set := by
    rw [(Alike.handedOn _).readable]
    intro l hl
    exact hls.readable l (List.mem_append_right _ (List.mem_append_left _ hl))
  obtain ⟨i?, hi⟩ := hread _ (List.mem_singleton_self _)
  have hsays : Statement.parse set line = ⟨(Statement.parse set line).label, .ok i?⟩ := by
    rw [← hi]
  have hline : Statement.parse set line' = Statement.parse set line := (hparse _ _ hsays).trans hsays.symm
  exact ((Alike.handedOn _).trans (Alike.of_parse_eq hline)).trans (Alike.handedOn _).symm

/-- Lines are moved if they have the number of the line put in, or a higher one. -/
theorem lines_insert (hclosed : Closed before) (rest : List Char) :
    (ofLines set (scan before ++ (scan rest).map (below (breaks before + 1)))).program.lines =
      (ofLines set (scan before ++ (scan rest).map (below (breaks before)))).program.lines.map
        fun k => k + insertedAbove [breaks before + 1] k := by
  rw [lines_program_append_map_below, lines_program_append_map_below, Array.map_append, Array.map_map]
  -- The lines before have lower numbers than the one put in, and those behind it come to have higher ones.
  have hlow : ∀ k ∈ (ofLines set (scan before)).program.lines, insertedAbove [breaks before + 1] k = 0 := by
    intro k hk
    rw [← Array.mem_toList_iff, lines_program_ofLines] at hk
    obtain ⟨l, hl, rfl⟩ := exists_line_of_mem_placed hk
    have hlt := number_lt_of_mem_scanFrom hclosed hl
    exact if_neg (by omega)
  have hhigh : ∀ k ∈ (ofLines set (scan rest)).program.lines,
      insertedAbove [breaks before + 1] (k + breaks before) = 1 := by
    intro k hk
    rw [← Array.mem_toList_iff, lines_program_ofLines] at hk
    obtain ⟨l, hl, rfl⟩ := exists_line_of_mem_placed hk
    have hle := number_le_of_mem_scanFrom hl
    exact if_pos (by omega)
  congr 1
  · nth_rewrite 1 [← Array.map_id' (ofLines set (scan before)).program.lines]
    apply Array.map_congr_left
    intro k hk
    rw [hlow k hk]
    rfl
  · apply Array.map_congr_left
    intro k hk
    show k + (breaks before + 1) = k + breaks before + insertedAbove [breaks before + 1] (k + breaks before)
    rw [hhigh k hk, Nat.add_assoc]

/-- A line that says nothing is put in. -/
theorem relaid_insert (hclosed : Closed before) (hline : Ending line) (hno : ∀ c ∈ line, isBreak c = false)
    (hls : Linkable set (scan (before ++ rest))) :
    Relaid set [breaks before + 1] (scan (before ++ rest)) (scan (before ++ (line ++ '\n' :: rest))) := by
  have hisLine : IsLine before line ('\n' :: rest) := ⟨hclosed.cut _, hno, by simp [isBreak]⟩
  have hrest : scanFrom (breaks before + 2) rest = (scan rest).map (below (breaks before + 1)) := by
    rw [scan, ← scanFrom_add, Nat.add_comm 1]
  have hscan : scan (before ++ (line ++ '\n' :: rest)) = scan before ++
      (handedOn ⟨breaks before + 1, line⟩ ++ (scan rest).map (below (breaks before + 1))) := by
    rw [hisLine.scan_eq, ← hrest]
    rfl
  have halike : Alike set (scan before ++ (scan rest).map (below (breaks before + 1)))
      (scan (before ++ (line ++ '\n' :: rest))) := by
    rw [hscan]
    have hsilent : Alike set [] (handedOn ⟨breaks before + 1, line⟩) :=
      (Alike.of_silent (parse_of_ending hline)).trans (Alike.handedOn _).symm
    exact (Alike.refl _).append (hsilent.append (Alike.refl _))
  rw [scan_append hclosed] at hls ⊢
  rw [Linkable.append_map_below_iff] at hls
  refine ⟨halike.linkable (Linkable.append_map_below_iff.mpr hls), ?_, ?_⟩
  · rw [halike.program_eq, code_program_append_map_below, code_program_append_map_below]
  · rw [halike.program_eq, lines_insert hclosed]

theorem Edit.relaid (h : Edit cs ns ds) (hls : Linkable set (scan cs)) : Relaid set ns (scan cs) (scan ds) := by
  cases h with
  | append hline hends hno =>
    apply hline.relaid _ _ hls
    · apply hline.replace (List.forall_mem_append.mpr ⟨hline.no_break, hno⟩)
      intro hnil
      exact (List.append_eq_nil_iff.mp hnil).1
    · intro label i? hparse
      exact parse_append_ending hparse hends
  | indent hline hblanks hno =>
    apply hline.relaid _ _ hls
    · apply hline.replace (List.forall_mem_append.mpr ⟨hno, hline.no_break⟩)
      intro hnil
      exact (List.append_eq_nil_iff.mp hnil).2
    · intro label i? hparse
      exact parse_blanks_append hparse hblanks
  | insert hclosed hends hno => exact relaid_insert hclosed hends hno hls

theorem Edits.relaid (h : Edits cs ns ds) (hls : Linkable set (scan cs)) : Relaid set ns (scan cs) (scan ds) := by
  induction h with
  | refl cs => exact (Alike.refl _).relaid hls
  | cons hfirst _ ih =>
    have hone := hfirst.relaid hls
    exact hone.trans (ih hone.linkable)

end Line

/-- A script that compiles does so with another layout, to the same code with the same positions. The line of each
instruction is then further down by the number of lines that were put in above it. -/
theorem layout_preserved (set : InstrSet) {script script' : String} {ns : List Nat} {p : Program}
    (hcompile : Program.compile set script = .ok p) (hedits : Line.Edits script.toList ns script'.toList) :
    ∃ p', Program.compile set script' = .ok p' ∧ p'.code = p.code ∧
      p'.lines = p.lines.map fun k => k + Line.insertedAbove ns k := by
  obtain ⟨hlinkable, rfl⟩ := compile_eq_ok_iff_linkable.mp hcompile
  obtain ⟨hlinkable', hcode, hlines⟩ := hedits.relaid hlinkable
  exact ⟨_, compile_eq_ok_iff_linkable.mpr ⟨hlinkable', rfl⟩, hcode, hlines⟩

/-- A comment right behind a number, a line of blanks after a break of two characters, a line indented, and a first
line that is a comment. The two instructions were on the lines 1 and 2. -/
theorem layout_preserved_loop :
    ∃ p', Program.compile .standard "//h\na: push #1//x\r\n  \n\tjmp a" = .ok p' ∧
      p'.code = #[.push (.immediate (.number .one)), .jump .always ⟨"a", some 0⟩] ∧ p'.lines = #[2, 4] := by
  have hcompile : Program.compile .standard "a: push #1\r\njmp a" =
      .ok ⟨#[.push (.immediate (.number .one)), .jump .always ⟨"a", some 0⟩], #[1, 2]⟩ :=
    Fallible.toOption_eq_some_iff.mp (by decide +kernel)
  have hcomment : Line.Edit "a: push #1\r\njmp a".toList [] "a: push #1//x\r\njmp a".toList :=
    @Line.Edit.append [] "a: push #1".toList "\r\njmp a".toList "//x".toList
      ⟨⟨nofun, nofun⟩, not_isBreak_of_any (by decide), by rintro _ ⟨⟩; rfl⟩ (.mk blanks_nil (.present ['x']))
      (not_isBreak_of_any (by decide))
  have hindent : Line.Edit "a: push #1//x\r\njmp a".toList [] "a: push #1//x\r\n\tjmp a".toList :=
    @Line.Edit.indent "a: push #1//x\r\n".toList "jmp a".toList [] "\t".toList
      ⟨⟨by rintro _ ⟨⟩; rfl, nofun⟩, not_isBreak_of_any (by decide), nofun⟩ (List.all_eq_true.mp (by decide))
      (not_isBreak_of_any (by decide))
  have hhead : Line.Edit "a: push #1//x\r\n\tjmp a".toList [1] "//h\na: push #1//x\r\n\tjmp a".toList :=
    @Line.Edit.insert [] "a: push #1//x\r\n\tjmp a".toList "//h".toList (.inl rfl)
      (.mk blanks_nil (.present ['h'])) (not_isBreak_of_any (by decide))
  have hblank : Line.Edit "//h\na: push #1//x\r\n\tjmp a".toList [3] "//h\na: push #1//x\r\n  \n\tjmp a".toList :=
    @Line.Edit.insert "//h\na: push #1//x\r\n".toList "\tjmp a".toList "  ".toList
      (.inr ⟨"//h\na: push #1//x\r".toList, rfl⟩)
      (@Ending.mk "  ".toList [] (List.all_eq_true.mp (by decide)) .absent) (not_isBreak_of_any (by decide))
  obtain ⟨p', hcompile', hcode, hlines⟩ :=
    layout_preserved .standard hcompile (.cons hcomment (.cons hindent (.cons hhead (.cons hblank (.refl _)))))
  exact ⟨p', hcompile', hcode, hlines.trans (by decide +kernel)⟩

end StackScript
