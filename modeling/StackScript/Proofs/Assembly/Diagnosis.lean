import StackScript.Proofs.Assembly.Failure
import StackScript.Proofs.Assembly.Reading
import StackScript.Shell.Plan

/-!
# What errors point at

A compile error names a line of the script and a part of its text. Each reader of the assembler, from literals up
to lines, reports only what stands in the text that it is given (`Cause.Shows`), and as that is a part of the
line, the line shows it too (`Cause.Shows.mono`). Errors about labels are not found by these readers.

The one error without a line is that of an entry whose kind cannot be made of the operands that the entry
accepts. It does not arise where every entry is fit for what the operand reader can hand to it (`Entry.Fit`).
Main statement (`compile_error_on_its_line`).
-/

namespace StackScript

open Text Fallible

/-! ### Reported parts of a text -/

/-- The text has the part in it that the error reports. -/
def Cause.Shows (text : List Char) : Cause → Prop
  | .unrecognized part =>
    part.toList ≠ [] ∧ (∀ c ∈ part.toList, isBlank c = false) ∧ part.toList <:+: text
  | .malformedImmediate part => '#' :: part.toList <:+: text
  | .unknownInstruction mnemonic | .unsupportedOperands mnemonic _ => mnemonic.toList <:+: text
  | .missingOperand => ',' ∈ text
  | .duplicateLabel name | .undefinedLabel name => name.toList <:+: text
  | .shapeMismatch _ => False

variable {cs rest : List Char} {set : InstrSet} {cause : Cause} {mn : String}

theorem Cause.Shows.mono (h : cause.Shows cs) {text : List Char} (hsub : cs <:+: text) : cause.Shows text := by
  cases cause with
  | unrecognized part => exact ⟨h.1, h.2.1, h.2.2.trans hsub⟩
  | missingOperand => exact hsub.subset h
  | shapeMismatch kind => exact h
  | _ => exact List.IsInfix.trans h hsub

/-! ### Operands -/

theorem shows_of_parseLiteral {e : OperandError} (h : Operand.parseLiteral cs = .error e) :
    (Cause.ofOperandError e).Shows ('#' :: cs) := by
  have hpart {w : List Char} (hw : w <+: cs) : '#' :: (String.ofList w).toList <:+: '#' :: cs := by
    rw [String.toList_ofList]
    exact ((List.prefix_cons_inj '#').mpr hw).isInfix
  unfold Operand.parseLiteral at h
  split at h
  · cases h
  · split at h
    · cases h
    · split at h
      · cases h
      · cases h
        exact hpart (List.prefix_refl cs)
      · cases h
        exact hpart (List.takeWhile_prefix _)

theorem shows_of_parseOperand {e : OperandError} (h : Operand.parse cs = .error e) :
    (Cause.ofOperandError e).Shows cs := by
  unfold Operand.parse at h
  split at h
  · next s hs =>
    obtain ⟨⟨⟩, n, rest⟩ := s
    obtain ⟨rfl, -, -⟩ := Scan.lone_eq_ok_iff.mp hs
    rcases bind_eq_error_iff.mp h with hliteral | ⟨_, -, hok⟩
    · exact shows_of_parseLiteral hliteral
    · cases hok
  · split at h
    · cases h
    · split at h <;> cases h

theorem shows_of_parseOperands {e : OperandError} (h : Operands.parse cs = .error e) :
    (Cause.ofOperandError e).Shows cs := by
  unfold Operands.parse at h
  rcases bind_eq_error_iff.mp h with hfirst | ⟨_ | ⟨first, afterFirst⟩, hfirst, h⟩
  · exact shows_of_parseOperand hfirst
  · cases h
  · have hafter := Grammar.suffix_of_parseOperand hfirst
    simp only at h
    split at h
    · cases h
    · next s hs =>
      obtain ⟨⟨⟩, n, rest⟩ := s
      obtain ⟨hcomma, -, -⟩ := Scan.lone_eq_ok_iff.mp hs
      -- From the comma on, the text is a part of the whole.
      have hrest : ',' :: rest <:+ cs := hcomma ▸ (skipBlanks_suffix afterFirst).trans hafter
      rcases bind_eq_error_iff.mp h with hsecond | ⟨_ | second, -, h⟩
      · apply (shows_of_parseOperand hsecond).mono
        exact ((skipBlanks_suffix rest).trans ((List.suffix_cons ',' rest).trans hrest)).isInfix
      · cases h
        exact hrest.subset List.mem_cons_self
      · cases h

/-! ### Entries -/

/-- Whatever operands can be read that the entry accepts, they make an instruction of its kind. -/
def Entry.Fit (e : Entry) : Prop :=
  ∀ cs ops rest, Operands.parse cs = .ok (ops, rest) → e.Accepts e.mnemonic ops → (e.kind.instantiate? ops).isSome

/-- Whatever operands can be read, what the set has for them can be made of them. -/
def InstrSet.Fit (set : InstrSet) : Prop :=
  ∀ cs ops rest mn e, Operands.parse cs = .ok (ops, rest) → set.resolve mn ops.mode = .ok e →
    (e.kind.instantiate? ops).isSome

theorem InstrSet.fit_ofList {entries : List Entry} (h : ∀ e ∈ entries, e.Fit) : (ofList entries).Fit := by
  intro cs ops rest mn e hops he
  obtain ⟨hmem, haccepts⟩ := accepts_of_resolve_ofList he
  exact h e hmem cs ops rest hops ⟨rfl, haccepts.2⟩

theorem fit_of_mem_standardEntries {e : Entry} (he : e ∈ standardEntries) : e.Fit := by
  intro cs ops rest _ haccepts
  exact haccepts.instantiate?_isSome he

/-! ### Lines -/

/-- Whether an error is about labels, which are looked up when the line has been read. -/
def Cause.onLabels : Cause → Bool
  | .duplicateLabel _ | .undefinedLabel _ => true
  | _ => false

/-- An error in reading a text over an instruction set. -/
structure Cause.FoundIn (set : InstrSet) (text : List Char) (cause : Cause) : Prop where
  not_onLabels : cause.onLabels = false
  shows : set.Fit → cause.Shows text

theorem Cause.FoundIn.mono (h : cause.FoundIn set cs) {text : List Char} (hsub : cs <:+: text) :
    cause.FoundIn set text where
  not_onLabels := h.not_onLabels
  shows hset := (h.shows hset).mono hsub

theorem foundIn_of_parseOperands {e : OperandError} (h : Operands.parse cs = .error e) :
    (Cause.ofOperandError e).FoundIn set cs where
  not_onLabels := by cases e <;> rfl
  shows _ := shows_of_parseOperands h

theorem foundIn_of_expectEnd (h : Statement.expectEnd cs = .error cause) : cause.FoundIn set cs := by
  unfold Statement.expectEnd at h
  simp only at h
  split at h
  · cases h
  · split at h
    · next s hs =>
      cases h
      obtain ⟨w, n, rest⟩ := s
      obtain ⟨⟨hsplit, hall, -⟩, -, hleast⟩ := Scan.atLeast_eq_ok_iff.mp hs
      have hsub : w <:+: cs := by
        have hpart : w <+: skipBlanks cs := hsplit ▸ List.prefix_append w rest
        exact hpart.isInfix.trans (skipBlanks_suffix cs).isInfix
      refine ⟨rfl, fun _ => ?_⟩
      show (String.ofList w).toList ≠ [] ∧ _
      rw [String.toList_ofList]
      refine ⟨List.ne_nil_of_length_pos hleast, ?_, hsub⟩
      intro c hc
      simpa using hall c hc
    · cases h

theorem foundIn_of_parseInstr (h : Statement.parseInstr set mn cs = .error cause) :
    cause.FoundIn set (mn.toList ++ cs) := by
  have hmn : mn.toList <:+: mn.toList ++ cs := (List.prefix_append _ _).isInfix
  have hblanks : skipBlanks cs <:+ mn.toList ++ cs := (skipBlanks_suffix cs).trans (List.suffix_append _ _)
  unfold Statement.parseInstr Statement.select at h
  split at h
  · cases h
    exact ⟨rfl, fun _ => hmn⟩
  · rcases bind_eq_error_iff.mp h with hoperands | ⟨⟨ops, rest⟩, hoperands, h⟩
    · obtain ⟨e, he, rfl⟩ := mapError_eq_error_iff.mp hoperands
      exact (foundIn_of_parseOperands he).mono hblanks.isInfix
    · have hops := mapError_eq_ok_iff.mp hoperands
      rcases bind_eq_error_iff.mp h with hend | ⟨⟨⟩, -, h⟩
      · apply (foundIn_of_expectEnd hend).mono
        exact ((Grammar.suffix_of_parseOperands hops).trans hblanks).isInfix
      · split at h
        · cases h
          exact ⟨rfl, fun _ => hmn⟩
        · cases h
          exact ⟨rfl, fun _ => hmn⟩
        · next entry hentry =>
          split at h
          · cases h
          · next hnone =>
            cases h
            refine ⟨rfl, fun hset => ?_⟩
            -- In a set that is fit, the entry can be made of the operands.
            have hsome := hset _ ops rest mn entry hops hentry
            rw [hnone] at hsome
            cases hsome

theorem foundIn_of_parseBody (h : Statement.parseBody set cs = .error cause) : cause.FoundIn set cs := by
  unfold Statement.parseBody at h
  split at h
  · next s hs =>
    obtain ⟨w, n, rest⟩ := s
    obtain ⟨rfl, -⟩ := Scan.word_eq_ok_iff.mp hs
    have hfound := foundIn_of_parseInstr (map_eq_error_iff.mp h)
    rwa [String.toList_ofList] at hfound
  · rcases bind_eq_error_iff.mp h with hend | ⟨⟨⟩, -, hok⟩
    · exact foundIn_of_expectEnd hend
    · cases hok

namespace Line

variable {l : Line}

theorem foundIn_of_parse (h : (Statement.parse set l.text).instr = .error cause) : cause.FoundIn set l.text := by
  unfold Statement.parse at h
  simp only at h
  split at h
  · next s hs =>
    obtain ⟨w, n, rest⟩ := s
    obtain ⟨hsplit, -⟩ := Scan.label_eq_ok_iff.mp hs
    apply (foundIn_of_parseBody h).mono
    have hrest : rest <:+ skipBlanks l.text := hsplit ▸ (List.suffix_cons ':' rest).trans (List.suffix_append w _)
    exact ((skipBlanks_suffix rest).trans (hrest.trans (skipBlanks_suffix l.text))).isInfix
  · exact (foundIn_of_parseBody h).mono (skipBlanks_suffix l.text).isInfix

/-- The label that a line declares stands on it, whether the rest of the line can be read or not. -/
theorem infix_of_label? {name : String} (h : l.label? set = some name) : name.toList <:+: l.text := by
  unfold label? Statement.parse at h
  simp only at h
  split at h
  · next s hs =>
    obtain ⟨w, n, rest⟩ := s
    obtain ⟨hsplit, -⟩ := Scan.label_eq_ok_iff.mp hs
    cases h
    rw [String.toList_ofList]
    have hname : w <+: skipBlanks l.text := hsplit ▸ List.prefix_append w _
    exact hname.isInfix.trans (skipBlanks_suffix l.text).isInfix
  · cases h

theorem HasFault.shows {before : List Line} (hset : set.Fit) (h : l.HasFault set before cause) :
    cause.Shows l.text := by
  cases h with
  | duplicate hlabel _ => exact infix_of_label? hlabel
  | unreadable _ hfault => exact (foundIn_of_parse hfault).shows hset

/-- The label of a jump stands on its line. -/
theorem Readable.infix_of_target? (h : l.Readable set) {i : Instr} (hi : l.instr? set = some i) {t : Target}
    (ht : i.target? = some t) : t.label.toList <:+: l.text := by
  obtain ⟨mn, ops, hwrites, e, -, hinstantiate⟩ := h.writes hi
  obtain ⟨-, rfl, -⟩ := Kind.instantiate?_eq_some_iff.mp hinstantiate
  have hmem : Operand.direct t.label ∈ i.operands.toList := by
    rw [Instr.operands_of_target? ht]
    exact List.mem_singleton_self _
  obtain ⟨w, hsub, hw⟩ := hwrites.exists_operand hmem
  generalize ha : Operand.direct t.label = a at hw
  cases hw with
  | direct hidentifier =>
    rw [Operand.direct.inj ha, String.toList_ofList]
    exact hsub
  | immediate _ => cases ha
  | register _ => cases ha

end Line

/-! ### Scripts -/

/-- No two lines have one number. -/
theorem Line.eq_of_number_eq {l l' : Line} (hl : l ∈ scan cs) (hl' : l' ∈ scan cs) (h : l.number = l'.number) :
    l = l' := by
  have hnodup : ((scan cs).map number).Nodup := by
    apply List.pairwise_map.mpr
    exact (pairwise_number_scan cs).imp Nat.ne_of_lt
  exact List.inj_on_of_nodup_map hnodup hl hl' h

theorem exists_line_of_compile_eq_error (hset : set.Fit) {script : String} {e : CompileError}
    (h : Program.compile set script = .error e) :
    ∃ l ∈ Line.scan script.toList, e.line = l.number ∧ e.cause.Shows l.text := by
  rcases compile_eq_error_iff.mp h with
    ⟨before, l, after, hscan, -, hline, hfault⟩ | ⟨haccepted, before, x, after, t, hplaced, -, ht, -, rfl⟩
  · refine ⟨l, ?_, hline, hfault.shows hset⟩
    rw [hscan]
    exact List.mem_append_cons_self
  · have hx : x ∈ (Line.scan script.toList).filterMap (Line.placed? set) := by
      rw [hplaced]
      exact List.mem_append_cons_self
    obtain ⟨l, hl, hx⟩ := List.mem_filterMap.mp hx
    obtain ⟨i, hi, rfl⟩ := Option.map_eq_some_iff.mp hx
    exact ⟨l, hl, rfl, (haccepted.readable l hl).infix_of_target? hi ht⟩

theorem reportedLine?_eq_some {script : String} {e : CompileError} {l : Line} (hl : l ∈ Line.scan script.toList)
    (hline : e.line? = some l.number) : Shell.reportedLine? script e = some l := by
  unfold Shell.reportedLine?
  rw [hline]
  show (Line.scan script.toList).find? (·.number = l.number) = some l
  cases hfind : (Line.scan script.toList).find? (·.number = l.number) with
  | none =>
    have hnone := List.find?_eq_none.mp hfind l hl
    simp at hnone
  | some l' =>
    have hnumber : l'.number = l.number := by simpa using List.find?_some hfind
    rw [Line.eq_of_number_eq (List.mem_of_find?_eq_some hfind) hl hnumber]

/-- Over a list of entries that are fit for what they accept, as those of the standard set are, the error of a
script that does not compile has a line. The script has this line, so that it can be reported, and the part of
the text that the error names stands there. In particular the entries are never found at fault. -/
theorem compile_error_on_its_line :
    (∀ entry ∈ standardEntries, entry.Fit) ∧
      ∀ entries : List Entry, (∀ entry ∈ entries, entry.Fit) → ∀ script e,
        Program.compile (.ofList entries) script = .error e →
          (∀ kind, e.cause ≠ .shapeMismatch kind) ∧
            ∃ l ∈ Line.scan script.toList, e.line? = some l.number ∧ Shell.reportedLine? script e = some l ∧
              e.cause.Shows l.text := by
  refine ⟨fun _ => fit_of_mem_standardEntries, ?_⟩
  intro entries hentries script e hfail
  obtain ⟨l, hl, hline, hshows⟩ := exists_line_of_compile_eq_error (InstrSet.fit_ofList hentries) hfail
  have hkind : ∀ kind, e.cause ≠ .shapeMismatch kind := by
    intro kind hkind
    rw [hkind] at hshows
    exact hshows
  have hline? : e.line? = some l.number := by
    rw [← hline]
    unfold CompileError.line?
    split
    · next kind hcause => exact absurd hcause (hkind kind)
    · rfl
  exact ⟨hkind, l, hl, hline?, reportedLine?_eq_some hl hline?, hshows⟩

/-- Two entries of a set of one's own, a jump and a comparison. -/
theorem compile_error_on_its_line_own_entries :
    let entries : List Entry := [⟨"go", .labelled, .jump .always⟩, ⟨"eq", .dir1 ∪ .imm2, .compare⟩]
    let script := "x: eq a, #1\r\n\r\n  go x // on\req b, #tru e"
    let e : CompileError := ⟨4, .malformedImmediate "tru"⟩
    (∀ entry ∈ entries, entry.Fit) ∧ Program.compile (.ofList entries) script = .error e ∧
      ∃ l ∈ Line.scan script.toList, e.line? = some l.number ∧ e.cause.Shows l.text := by
  intro entries script e
  have htakes : ∀ entry ∈ entries, (entry.mode ≠ Mode.labelled → entry.kind.takes entry.mode) ∧
      (entry.mode = Mode.labelled → entry.kind.takes Mode.dir1) := by decide
  have hentries : ∀ entry ∈ entries, entry.Fit := by
    intro entry hentry cs ops rest _ haccepts
    exact haccepts.isSome_of_takes (htakes entry hentry).1 (htakes entry hentry).2
  have hfail : Program.compile (.ofList entries) script = .error e := by decide +kernel
  obtain ⟨-, l, hl, hline, -, hshows⟩ := compile_error_on_its_line.2 entries hentries script e hfail
  exact ⟨hentries, hfail, l, hl, hline, hshows⟩

end StackScript
