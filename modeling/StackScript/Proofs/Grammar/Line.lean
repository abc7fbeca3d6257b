import StackScript.Assembly.Statement
import StackScript.Proofs.Grammar.Operand
import StackScript.Proofs.Instr.Written

/-!
# Lines are read as the grammar says

Main statement (`parse_eq_iff`): over any instruction set, a line is read without a fault exactly if
the grammar spells it and the set has the instruction, and then it is read as what it spells. As
reading is a function, the grammar is unambiguous (`SpellsLine.unique`).

The delicate point is a line without a label, for the mnemonic and an operand that touches it may
look like the beginning of a label. `SpellsInstr.not_label` says that no instruction is mistaken for
one: the first character that cannot stand in an identifier is never a colon.
-/

namespace StackScript

namespace Grammar

open Text Fallible

variable {cs b e : List Char} {set : InstrSet} {mn : String} {ops : Operands} {i : Instr}

/-! ### The end of a line -/

theorem expectEnd_eq_ok_iff : Statement.expectEnd cs = .ok () ↔ Ending cs := by
  obtain ⟨g, hsplit, hg, hstops⟩ := exists_skipBlanks cs
  unfold Statement.expectEnd
  constructor
  · intro h
    simp only at h
    split at h
    · next s hs =>
      obtain ⟨tail, htail⟩ := Scan.comment_isOk_iff.mp ⟨s, hs⟩
      rw [hsplit, htail]
      exact .mk hg (.present tail)
    · split at h
      · simp at h
      · next err herr =>
        have hnil : skipBlanks cs = [] := by
          refine Classical.byContradiction fun hne => ?_
          obtain ⟨s, hs⟩ := (Scan.nonBlank_isOk_iff hstops).mpr hne
          rw [hs] at herr
          simp at herr
        rw [hsplit, hnil]
        exact .mk hg .absent
  · intro h
    have hcomment := h.comment_skipBlanks
    simp only
    generalize skipBlanks cs = c at hcomment
    cases hcomment with
    | absent => rfl
    | present tail =>
      obtain ⟨s, hs⟩ := Scan.comment_isOk_iff.mpr ⟨tail, rfl⟩
      rw [hs]

/-! ### Instructions -/

/-- An instruction is read if its operands are, nothing but a comment is left, and the set has it. -/
theorem parseInstr_eq_ok_iff :
    Statement.parseInstr set mn cs = .ok i ↔
      ∃ ops rest, Operands.parse (skipBlanks cs) = .ok (ops, rest) ∧ Ending rest ∧ set.Gives mn ops i := by
  unfold Statement.parseInstr Statement.select
  constructor
  · intro h
    split at h
    · simp at h
    · obtain ⟨⟨ops, rest⟩, hops, h⟩ := bind_eq_ok_iff.mp h
      obtain ⟨⟨⟩, hend, h⟩ := bind_eq_ok_iff.mp h
      refine ⟨ops, rest, mapError_eq_ok_iff.mp hops, expectEnd_eq_ok_iff.mp hend, ?_⟩
      split at h
      · simp at h
      · simp at h
      · next entry hentry =>
        split at h
        · next j hj =>
          simp only [pure_eq_ok, Except.ok.injEq] at h
          subst h
          exact ⟨entry, hentry, hj⟩
        · simp at h
  · rintro ⟨ops, rest, hops, hend, hgives⟩
    obtain ⟨entry, hentry, hi⟩ := hgives
    have hne : set.entries mn ≠ [] := InstrSet.Gives.entries_ne_nil ⟨entry, hentry, hi⟩
    simp only [hne, if_false, mapError_eq_ok_iff.mpr hops, expectEnd_eq_ok_iff.mpr hend, ok_bind, hentry, hi]
    rfl

/-- A mnemonic that was taken as far as it goes, with what follows it read as operands, is an
instruction. -/
theorem spellsInstr_of_parse {w rest : List Char} (hw : Mnemonic w) (hstops : Stops Scan.isLetterOrDigit cs)
    (h : Operands.parse (skipBlanks cs) = .ok (ops, rest)) (hrest : Ending rest) :
    ∃ b e, w ++ cs = b ++ e ∧ SpellsInstr b (String.ofList w) ops ∧ Ending e := by
  obtain ⟨gap, hsplit, hgap, -⟩ := exists_skipBlanks cs
  rcases spellsOperands_of_parse h with ⟨rfl, rfl⟩ | ⟨v, hv, hops⟩
  · exact ⟨w, cs, rfl, .plain hw, hsplit ▸ hrest.blanks_append hgap⟩
  · refine ⟨w ++ gap ++ v, rest, by rw [hsplit, hv]; simp, .operands hw hgap hops ?_, hrest⟩
    -- a letter right after the mnemonic would have been part of it
    rintro ⟨c, hc, halpha⟩ rfl
    have hhead : c ∈ cs.head? := by
      rw [hsplit, hv]
      cases v with
      | nil => simp at hc
      | cons d v => simpa using hc
    have hstop := hstops c hhead
    rw [Scan.isLetterOrDigit, isAlphanum_iff.mpr (.inl halpha)] at hstop
    exact absurd hstop (by decide)

/-! ### Lines without a label -/

theorem spellsBody_of_parseBody {i? : Option Instr} (h : Statement.parseBody set cs = .ok i?) :
    ∃ b e body, cs = b ++ e ∧ SpellsBody b body ∧ Ending e ∧
      Option.Rel (fun m j => set.Gives m.1 m.2 j) body i? := by
  unfold Statement.parseBody at h
  split at h
  · next s hs =>
    obtain ⟨w, n, r⟩ := s
    obtain ⟨rfl, hw, hstops, -⟩ := Scan.word_eq_ok_iff.mp hs
    obtain ⟨j, hj, rfl⟩ := map_eq_ok_iff.mp h
    obtain ⟨ops, rest, hops, hrest, hgives⟩ := parseInstr_eq_ok_iff.mp hj
    obtain ⟨b, e, hsplit, hb, he⟩ := spellsInstr_of_parse hw hstops hops hrest
    exact ⟨b, e, some (_, ops), hsplit, .present hb, he, .some hgives⟩
  · obtain ⟨⟨⟩, hend, h⟩ := bind_eq_ok_iff.mp h
    simp only [pure_eq_ok, Except.ok.injEq] at h
    subst h
    exact ⟨[], cs, none, rfl, .absent, expectEnd_eq_ok_iff.mp hend, .none⟩

theorem Boundary.stops_isLetterOrDigit (h : Boundary cs) : Stops Scan.isLetterOrDigit cs :=
  h.stops_identifierBody.mono fun _ hc => isIdentifierBody_of_isAlphanum hc

/-- What follows a mnemonic does not extend it. -/
theorem gap_stops {gap w : List Char} (hgap : Blanks gap) (hw : SpellsOperands w ops)
    (hletter : (∃ c ∈ w.head?, c.isAlpha = true) → gap ≠ []) (he : Ending e) :
    Stops Scan.isLetterOrDigit (gap ++ (w ++ e)) := by
  cases gap with
  | cons c gap =>
    refine stops_cons.mpr ?_
    cases hc : Scan.isLetterOrDigit c with
    | false => rfl
    | true =>
      have hblank := not_blank_of_isIdentifierBody (isIdentifierBody_of_isAlphanum hc)
      rw [hgap c (by simp)] at hblank
      exact absurd hblank (by decide)
  | nil =>
    obtain ⟨v, a, tail, rfl, hv, -⟩ := hw.exists_first he.boundary
    have hnot : ∀ c ∈ (v ++ tail).head?, c.isAlpha = false := by
      intro c hc
      rw [← Bool.not_eq_true]
      exact fun halpha => hletter ⟨c, hc, halpha⟩ rfl
    cases hv with
    | immediate hlit => exact stops_cons.mpr (by decide)
    | register hname => exact stops_cons.mpr (by decide)
    | direct hname =>
      cases hname with
      | @cons c v' hc hall =>
        -- an identifier that does not begin with a letter begins with an underscore
        have halpha := hnot c (by simp)
        have hunderscore : c = '_' := by simpa [Scan.isIdentifierStart, halpha] using hc
        rw [hunderscore]
        exact stops_cons.mpr (by decide)

/-- The scanners find the mnemonic and the operands of an instruction. -/
theorem SpellsInstr.scan (hb : SpellsInstr b mn ops) (he : Ending e) :
    ∃ w n rest rest', Scan.mnemonic (b ++ e) = .ok ⟨w, n, rest⟩ ∧ String.ofList w = mn ∧
      Operands.parse (skipBlanks rest) = .ok (ops, rest') ∧ Ending rest' := by
  cases hb with
  | plain hmn =>
    exact ⟨b, b.length, e, skipBlanks e,
      Scan.word_eq_ok_iff.mpr ⟨rfl, hmn, he.boundary.stops_isLetterOrDigit, rfl⟩, rfl,
      operands_parse_of_comment he.comment_skipBlanks, .mk blanks_nil he.comment_skipBlanks⟩
  | @operands w gap v ops hmn hgap hv hletter =>
    have htext : w ++ gap ++ v ++ e = w ++ (gap ++ (v ++ e)) := by simp
    have hblank : Stops isBlank (v ++ e) := by
      obtain ⟨v', a, tail, rfl, hv', -⟩ := hv.exists_first he.boundary
      rw [List.append_assoc]
      exact hv'.stops_isBlank
    refine ⟨w, w.length, gap ++ (v ++ e), e,
      Scan.word_eq_ok_iff.mpr ⟨htext, hmn, gap_stops hgap hv hletter he, rfl⟩, rfl, ?_, he⟩
    rw [skipBlanks_append hgap hblank]
    exact parse_of_spellsOperands hv he

theorem parseBody_of_spellsInstr (hb : SpellsInstr b mn ops) (he : Ending e) (hi : set.Gives mn ops i) :
    Statement.parseBody set (b ++ e) = .ok (some i) := by
  obtain ⟨w, n, rest, rest', hmn, rfl, hops, hrest'⟩ := hb.scan he
  have hinstr := parseInstr_eq_ok_iff.mpr ⟨ops, rest', hops, hrest', hi⟩
  simp only [Statement.parseBody, hmn]
  exact map_eq_ok_iff.mpr ⟨i, hinstr, rfl⟩

theorem parseBody_of_comment (h : Comment cs) : Statement.parseBody set cs = .ok none := by
  have hmnemonic : ∃ err, Scan.mnemonic cs = .error err := Scan.word_fails (h.stops (by decide))
  obtain ⟨err, herr⟩ := hmnemonic
  have hend : Statement.expectEnd cs = .ok () := expectEnd_eq_ok_iff.mpr (.mk blanks_nil h)
  simp only [Statement.parseBody, herr, hend, ok_bind]
  rfl

/-! ### Labels -/

/-- The first character of an instruction that cannot stand in an identifier is not a colon. -/
theorem SpellsInstr.colon_not_after_identifier (hb : SpellsInstr b mn ops) (he : Ending e) :
    Stops (· == ':') ((b ++ e).dropWhile Scan.isIdentifierBody) := by
  have hboundary : ∀ {rest : List Char}, Boundary rest →
      Stops (· == ':') (rest.dropWhile Scan.isIdentifierBody) := by
    intro rest hrest
    rw [hrest.stops_identifierBody.dropWhile_eq_self]
    refine Stops.mono hrest fun c hc => ?_
    rw [eq_of_beq hc]
    decide
  cases hb with
  | plain hmn =>
    rw [List.dropWhile_append_of_pos hmn.identifier.all_body]
    exact hboundary he.boundary
  | @operands mn gap w ops hmn hgap hw hletter =>
    rw [List.append_assoc, List.append_assoc, List.dropWhile_append_of_pos hmn.identifier.all_body]
    cases gap with
    | cons c gap =>
      exact hboundary (stops_cons.mpr (by simp [hgap c (by simp)]))
    | nil =>
      obtain ⟨v, a, tail, rfl, hv, htail⟩ := hw.exists_first he.boundary
      rw [List.nil_append, List.append_assoc]
      cases hv with
      | immediate hlit =>
        rw [List.cons_append, List.dropWhile_cons_of_neg (by decide)]
        exact stops_cons.mpr (by decide)
      | register hname =>
        rw [List.cons_append, List.dropWhile_cons_of_neg (by decide)]
        exact stops_cons.mpr (by decide)
      | direct hname =>
        rw [List.dropWhile_append_of_pos hname.all_body]
        exact hboundary htail

/-- No instruction is mistaken for the declaration of a label. -/
theorem SpellsInstr.not_label (hb : SpellsInstr b mn ops) (he : Ending e) :
    ∃ err, Scan.label (b ++ e) = .error err := by
  refine exists_eq_error ?_
  rintro ⟨name, n, rest⟩ hs
  obtain ⟨hsplit, hname, -, -⟩ := Scan.label_eq_ok_iff.mp hs
  have hcolon := hb.colon_not_after_identifier he
  rw [hsplit, List.dropWhile_append_of_pos hname.all_body, List.dropWhile_cons_of_neg (by decide)] at hcolon
  simp at hcolon

theorem Comment.not_label (h : Comment cs) : ∃ err, Scan.label cs = .error err := by
  have hidentifier : ∃ err, Scan.identifier cs = .error err := Scan.word_fails (h.stops (by decide))
  obtain ⟨err, herr⟩ := hidentifier
  exact ⟨err, by simp [Scan.label, herr]⟩

/-- An instruction does not begin with a character in `p` if no letter is in `p`. -/
theorem SpellsInstr.stops {p : Char → Bool} (hb : SpellsInstr b mn ops) (hp : ∀ c, c.isAlpha = true → p c = false) :
    Stops p (b ++ e) := by
  cases hb with
  | plain hmn =>
    cases hmn with
    | cons hstart hall => exact stops_cons.mpr (hp _ hstart)
  | operands hmn hgap hw hletter =>
    cases hmn with
    | cons hstart hall => exact stops_cons.mpr (hp _ hstart)

theorem SpellsInstr.stops_isBlank (hb : SpellsInstr b mn ops) : Stops isBlank (b ++ e) :=
  hb.stops fun _ hc =>
    not_blank_of_isIdentifierBody (isIdentifierBody_of_isAlphanum (isAlphanum_iff.mpr (.inl hc)))

/-! ### Whole lines -/

variable {g : List Char} {label : Option String} {body : Option (String × Operands)} {i? : Option Instr}

theorem SpellsBody.parseBody_skipBlanks (hb : SpellsBody b body) (hg : Blanks g) (he : Ending e)
    (hi : Option.Rel (fun m j => set.Gives m.1 m.2 j) body i?) :
    Statement.parseBody set (skipBlanks (g ++ (b ++ e))) = .ok i? := by
  cases hb with
  | absent =>
    cases hi with
    | none => exact parseBody_of_comment (he.blanks_append hg).comment_skipBlanks
  | present hinstr =>
    cases hi with
    | some hgives =>
      rw [skipBlanks_append hg hinstr.stops_isBlank]
      exact parseBody_of_spellsInstr hinstr he hgives

theorem SpellsBody.not_label (hb : SpellsBody b body) (hg : Blanks g) (he : Ending e) :
    ∃ err, Scan.label (skipBlanks (g ++ (b ++ e))) = .error err := by
  cases hb with
  | absent => exact (he.blanks_append hg).comment_skipBlanks.not_label
  | present hinstr =>
    rw [skipBlanks_append hg hinstr.stops_isBlank]
    exact hinstr.not_label he

/-- After the colon of a label there is no second colon. -/
theorem SpellsBody.stops_colon (hb : SpellsBody b body) (hg : Blanks g) (he : Ending e) :
    Stops (· == ':') (g ++ (b ++ e)) := by
  refine hg.stops_beq_append (by decide) ?_
  cases hb with
  | absent =>
    refine Stops.mono he.boundary fun c hc => ?_
    rw [eq_of_beq hc]
    decide
  | present hinstr =>
    refine hinstr.stops fun c hc => beq_eq_false_iff_ne.mpr ?_
    rintro rfl
    exact absurd hc (by decide)

/-- A line without a label is not read as one with a label. -/
theorem SpellsLine.scan_none (h : SpellsLine cs none body) :
    ∃ g b e, cs = g ++ (b ++ e) ∧ Blanks g ∧ SpellsBody b body ∧ Ending e ∧
      ∃ err, Scan.label (skipBlanks cs) = .error err := by
  cases h with
  | @mk g l g' b e _ _ hg hl hg' hb he =>
    cases hl with
    | absent =>
      have htext : g ++ [] ++ g' ++ b ++ e = (g ++ g') ++ (b ++ e) := by simp
      refine ⟨g ++ g', b, e, htext, hg.append hg', hb, he, ?_⟩
      rw [htext]
      exact hb.not_label (hg.append hg') he

/-- The label of a line is found. -/
theorem SpellsLine.scan_some {name : String} (h : SpellsLine cs (some name) body) :
    ∃ w n g b e, Scan.label (skipBlanks cs) = .ok ⟨w, n, g ++ (b ++ e)⟩ ∧ String.ofList w = name ∧
      Blanks g ∧ SpellsBody b body ∧ Ending e := by
  cases h with
  | @mk g l g' b e _ _ hg hl hg' hb he =>
    cases hl with
    | @present w hw =>
      have htext : g ++ (w ++ [':']) ++ g' ++ b ++ e = g ++ (w ++ ':' :: (g' ++ (b ++ e))) := by simp
      have hblank : Stops isBlank (w ++ ':' :: (g' ++ (b ++ e))) := by
        cases hw with
        | cons hstart hall =>
          exact stops_cons.mpr (not_blank_of_isIdentifierBody (isIdentifierBody_of_isIdentifierStart hstart))
      refine ⟨w, w.length + 1, g', b, e, ?_, rfl, hg', hb, he⟩
      rw [htext, skipBlanks_append hg hblank]
      exact Scan.label_eq_ok_iff.mpr ⟨rfl, hw, hb.stops_colon hg' he, rfl⟩

theorem parse_of_spellsLine (h : SpellsLine cs label body)
    (hi : Option.Rel (fun m j => set.Gives m.1 m.2 j) body i?) :
    Statement.parse set cs = ⟨label, .ok i?⟩ := by
  unfold Statement.parse
  cases label with
  | none =>
    obtain ⟨g, b, e, rfl, hg, hb, he, err, herr⟩ := h.scan_none
    simp only [herr, hb.parseBody_skipBlanks hg he hi]
  | some name =>
    obtain ⟨w, n, g, b, e, hs, rfl, hg, hb, he⟩ := h.scan_some
    simp only [hs, hb.parseBody_skipBlanks hg he hi]

theorem spellsLine_of_parse (h : Statement.parse set cs = ⟨label, .ok i?⟩) :
    ∃ body, SpellsLine cs label body ∧ Option.Rel (fun m j => set.Gives m.1 m.2 j) body i? := by
  obtain ⟨g, hsplit, hg, -⟩ := exists_skipBlanks cs
  unfold Statement.parse at h
  simp only at h
  split at h
  · next s hs =>
    obtain ⟨w, n, r⟩ := s
    obtain ⟨hlabel, hw, -, -⟩ := Scan.label_eq_ok_iff.mp hs
    obtain ⟨g', hsplit', hg', -⟩ := exists_skipBlanks r
    simp only [Statement.mk.injEq] at h
    obtain ⟨rfl, hbody⟩ := h
    obtain ⟨b, e, body, hsplit'', hb, he, hi⟩ := spellsBody_of_parseBody hbody
    have htext : cs = g ++ (w ++ [':']) ++ g' ++ b ++ e := by
      rw [hsplit, hlabel, hsplit', hsplit'']
      simp
    exact ⟨body, htext ▸ .mk hg (.present hw) hg' hb he, hi⟩
  · simp only [Statement.mk.injEq] at h
    obtain ⟨rfl, hbody⟩ := h
    obtain ⟨b, e, body, hsplit', hb, he, hi⟩ := spellsBody_of_parseBody hbody
    have htext : cs = g ++ [] ++ [] ++ b ++ e := by
      rw [hsplit, hsplit']
      simp
    exact ⟨body, htext ▸ .mk hg .absent blanks_nil hb he, hi⟩

/-- A line is read without a fault exactly if the grammar spells it and the set has its instruction.
-/
theorem parse_eq_iff :
    Statement.parse set cs = ⟨label, .ok i?⟩ ↔
      ∃ body, SpellsLine cs label body ∧ Option.Rel (fun m j => set.Gives m.1 m.2 j) body i? :=
  ⟨spellsLine_of_parse, fun ⟨_, h, hi⟩ => parse_of_spellsLine h hi⟩

/-! ### Unambiguity -/

theorem SpellsInstr.unique {b' e' : List Char} {mn' : String} {ops' : Operands} (h : SpellsInstr b mn ops)
    (he : Ending e) (h' : SpellsInstr b' mn' ops') (he' : Ending e') (htext : b ++ e = b' ++ e') :
    (mn, ops) = (mn', ops') := by
  obtain ⟨w, n, rest, r, hmn, rfl, hops, -⟩ := h.scan he
  obtain ⟨w', n', rest', r', hmn', rfl, hops', -⟩ := h'.scan he'
  rw [htext, hmn'] at hmn
  obtain ⟨rfl, -, rfl⟩ := Scan.Scanned.mk.inj (Except.ok.inj hmn)
  rw [hops'] at hops
  obtain ⟨rfl, -⟩ := Prod.mk.inj (Except.ok.inj hops)
  rfl

theorem SpellsBody.unique {b' e' g' : List Char} {body' : Option (String × Operands)} (h : SpellsBody b body)
    (hg : Blanks g) (he : Ending e) (h' : SpellsBody b' body') (hg' : Blanks g') (he' : Ending e')
    (htext : g ++ (b ++ e) = g' ++ (b' ++ e')) : body = body' := by
  have hskip := congrArg skipBlanks htext
  -- the end of a line is no instruction
  have hend : ∀ {c v r : List Char} {mn : String} {ops : Operands}, Comment c → SpellsInstr v mn ops →
      Ending r → c ≠ v ++ r := by
    rintro c v r mn ops hc hv hr rfl
    obtain ⟨w, n, rest, r', hmn, -⟩ := hv.scan hr
    have hmnemonic : ∃ err, Scan.mnemonic (v ++ r) = .error err := Scan.word_fails (hc.stops (by decide))
    obtain ⟨err, herr⟩ := hmnemonic
    rw [hmn] at herr
    simp at herr
  cases h with
  | absent =>
    cases h' with
    | absent => rfl
    | present hinstr' =>
      rw [skipBlanks_append hg' hinstr'.stops_isBlank] at hskip
      exact absurd hskip (hend (he.blanks_append hg).comment_skipBlanks hinstr' he')
  | present hinstr =>
    rw [skipBlanks_append hg hinstr.stops_isBlank] at hskip
    cases h' with
    | absent => exact absurd hskip.symm (hend (he'.blanks_append hg').comment_skipBlanks hinstr he)
    | present hinstr' =>
      rw [skipBlanks_append hg' hinstr'.stops_isBlank] at hskip
      exact congrArg some (hinstr.unique he hinstr' he' hskip)

/-- A line says one thing. -/
theorem SpellsLine.unique {label' : Option String} {body' : Option (String × Operands)}
    (h : SpellsLine cs label body) (h' : SpellsLine cs label' body') : label = label' ∧ body = body' := by
  cases label with
  | none =>
    obtain ⟨g, b, e, hcs, hg, hb, he, err, herr⟩ := h.scan_none
    cases label' with
    | none =>
      obtain ⟨g', b', e', hcs', hg', hb', he', -⟩ := h'.scan_none
      exact ⟨rfl, hb.unique hg he hb' hg' he' (hcs.symm.trans hcs')⟩
    | some name' =>
      obtain ⟨w', n', g', b', e', hs', -⟩ := h'.scan_some
      rw [herr] at hs'
      simp at hs'
  | some name =>
    obtain ⟨w, n, g, b, e, hs, rfl, hg, hb, he⟩ := h.scan_some
    cases label' with
    | none =>
      obtain ⟨g', b', e', -, -, -, -, err', herr'⟩ := h'.scan_none
      rw [hs] at herr'
      simp at herr'
    | some name' =>
      obtain ⟨w', n', g', b', e', hs', rfl, hg', hb', he'⟩ := h'.scan_some
      rw [hs] at hs'
      obtain ⟨rfl, -, hrest⟩ := Scan.Scanned.mk.inj (Except.ok.inj hs')
      exact ⟨rfl, hb.unique hg he hb' hg' he' hrest⟩

end Grammar
end StackScript
