import StackScript.Operand.Parser
import StackScript.Proofs.Text.Scan

/-!
# Operands are read as the grammar says

The parser of operands against the grammar, in two directions. *Soundness*: what it takes off a text
is spelt by the grammar. *Completeness*: it takes every operand, provided that the text after it
begins as the text after an operand can (`Boundary`). Without that proviso completeness fails, since
the longest run of letters or digits may reach further than the operand.
-/

namespace StackScript
namespace Grammar

open Text Fallible

variable {cs w rest : List Char}

/-! ### What may follow an operand -/

/-- A blank, a comma, a slash or the end: what can stand after an operand. -/
def Boundary (cs : List Char) : Prop := Stops (fun c => !(isBlank c || c == ',' || c == '/')) cs

theorem not_blank_of_isIdentifierBody {c : Char} (h : Scan.isIdentifierBody c = true) :
    isBlank c = false := by
  rw [← Bool.not_eq_true, isBlank_iff]
  simp only [Scan.isIdentifierBody, Bool.or_eq_true, isAlphanum_iff, isAlpha_iff, isDigit_iff, beq_iff_eq] at h
  rcases h with h | rfl
  · omega
  · decide

theorem isIdentifierBody_of_isIdentifierStart {c : Char} (h : Scan.isIdentifierStart c = true) :
    Scan.isIdentifierBody c = true := by
  simp only [Scan.isIdentifierStart, Scan.isIdentifierBody, Bool.or_eq_true, isAlphanum_iff] at h ⊢
  exact h.imp_left .inl

theorem isIdentifierBody_of_isAlphanum {c : Char} (h : c.isAlphanum = true) :
    Scan.isIdentifierBody c = true := by
  simp [Scan.isIdentifierBody, h]

theorem Identifier.all_body (h : Identifier w) : ∀ c ∈ w, Scan.isIdentifierBody c = true := by
  intro c hc
  cases h with
  | cons hstart hall =>
    rcases List.mem_cons.mp hc with rfl | hc
    · exact isIdentifierBody_of_isIdentifierStart hstart
    · exact hall c hc

theorem Mnemonic.identifier (h : Mnemonic w) : Identifier w := by
  cases h with
  | cons hstart hall =>
    exact .cons (by simp [Scan.isIdentifierStart, Scan.isLetter] at hstart ⊢; exact .inl hstart)
      fun d hd => isIdentifierBody_of_isAlphanum (hall d hd)

theorem Boundary.stops_identifierBody (h : Boundary cs) : Stops Scan.isIdentifierBody cs := by
  refine Stops.mono h fun c hc => ?_
  have hcomma : (c == ',') = false := beq_eq_false_iff_ne.mpr (by rintro rfl; exact absurd hc (by decide))
  have hslash : (c == '/') = false := beq_eq_false_iff_ne.mpr (by rintro rfl; exact absurd hc (by decide))
  simp [not_blank_of_isIdentifierBody hc, hcomma, hslash]

theorem Boundary.stops_isAlpha (h : Boundary cs) : Stops Scan.isLetter cs :=
  h.stops_identifierBody.mono fun _ hc => isIdentifierBody_of_isAlphanum (isAlphanum_iff.mpr (.inl hc))

theorem Boundary.stops_isDigit (h : Boundary cs) : Stops Char.isDigit cs :=
  h.stops_identifierBody.mono fun _ hc => isIdentifierBody_of_isAlphanum (isAlphanum_iff.mpr (.inr hc))

theorem Boundary.stops_point (h : Boundary cs) : Stops (· == '.') cs := by
  refine Stops.mono h fun c hc => ?_
  rw [eq_of_beq hc]
  decide

/-! ### Literals -/

theorem spellsLiteral_of_parseLiteral {v : Value} (h : Operand.parseLiteral cs = .ok (v, rest)) :
    ∃ w, cs = w ++ rest ∧ SpellsLiteral w v := by
  unfold Operand.parseLiteral at h
  split at h
  · next s hs =>
    obtain ⟨b, n, r⟩ := s
    obtain ⟨w, hrun, -, hlower⟩ := Scan.boolean_eq_ok_iff.mp hs
    simp only [Except.ok.injEq, Prod.mk.injEq] at h
    obtain ⟨rfl, rfl⟩ := h
    exact ⟨w, hrun.split, .boolean b hlower⟩
  · split at h
    · next s hs =>
      obtain ⟨x, n, r⟩ := s
      obtain ⟨num, hsplit, rfl, -⟩ := Scan.number_eq_ok_iff.mp hs
      simp only [Except.ok.injEq, Prod.mk.injEq] at h
      obtain ⟨rfl, rfl⟩ := h
      exact ⟨num.text, hsplit, .number num⟩
    · split at h
      · next s hs =>
        obtain ⟨body, n, r⟩ := s
        obtain ⟨hsplit, hquote, -⟩ := Scan.string_eq_ok_iff.mp hs
        simp only [Except.ok.injEq, Prod.mk.injEq] at h
        obtain ⟨rfl, rfl⟩ := h
        exact ⟨_, by simp [hsplit], .string hquote⟩
      · simp at h
      · simp at h

theorem isAlpha_of_isAlpha_toLower {c : Char} (h : c.toLower.isAlpha = true) : c.isAlpha = true := by
  unfold Char.toLower at h
  split at h
  · next hc =>
    have h₁ : 65 ≤ c.toNat := UInt32.le_iff_toNat_le.mp hc.1
    have h₂ : c.toNat ≤ 90 := UInt32.le_iff_toNat_le.mp hc.2
    exact isAlpha_iff.mpr (.inl ⟨h₁, h₂⟩)
  · exact h

/-- A boolean in any case consists of letters, and it has some. -/
theorem isAlpha_of_map_toLower {b : Bool}
    (h : w.map Char.toLower = if b then "true".toList else "false".toList) :
    w ≠ [] ∧ ∀ c ∈ w, c.isAlpha = true := by
  have hword : (if b then "true".toList else "false".toList) ≠ [] ∧
      (if b then "true".toList else "false".toList).all Char.isAlpha = true := by
    cases b <;> decide
  rw [← h] at hword
  refine ⟨by rintro rfl; exact hword.1 rfl, fun c hc => ?_⟩
  exact isAlpha_of_isAlpha_toLower (List.all_eq_true.mp hword.2 _ (List.mem_map_of_mem hc))

/-- A literal begins with a letter, a digit, a minus sign or a quote. -/
theorem SpellsLiteral.exists_cons {v : Value} (h : SpellsLiteral w v) :
    ∃ c cs, w = c :: cs ∧ (c.isAlphanum = true ∨ c = '-' ∨ c = Scan.quote) := by
  cases h with
  | boolean b hlower =>
    obtain ⟨hne, hall⟩ := isAlpha_of_map_toLower hlower
    obtain ⟨c, cs, rfl⟩ := List.exists_cons_of_ne_nil hne
    exact ⟨c, cs, rfl, .inl (isAlphanum_iff.mpr (.inl (hall c (by simp))))⟩
  | number num =>
    obtain ⟨c, cs, hcs, hc⟩ := num.exists_text_cons
    exact ⟨c, cs, hcs, hc.symm.imp (fun h => isAlphanum_iff.mpr (.inr h)) .inl⟩
  | string hquote => exact ⟨_, _, rfl, .inr (.inr rfl)⟩

theorem parseLiteral_of_spellsLiteral {v : Value} (h : SpellsLiteral w v) (hrest : Boundary rest) :
    Operand.parseLiteral (w ++ rest) = .ok (v, rest) := by
  unfold Operand.parseLiteral
  cases h with
  | boolean b hlower =>
    have hs : Scan.boolean (w ++ rest) = .ok ⟨b, w.length, rest⟩ :=
      Scan.boolean_eq_ok_iff.mpr
        ⟨w, ⟨rfl, (isAlpha_of_map_toLower hlower).2, hrest.stops_isAlpha⟩, rfl, hlower⟩
    rw [hs]
  | number num =>
    have hletter : Stops Scan.isLetter (num.text ++ rest) := by
      obtain ⟨c, cs, hcs, hc⟩ := num.exists_text_cons
      rw [hcs, List.cons_append, stops_cons, Scan.isLetter, ← Bool.not_eq_true, isAlpha_iff]
      rcases hc with rfl | hc
      · decide
      · rw [isDigit_iff] at hc; omega
    obtain ⟨e, he⟩ := Scan.boolean_fails hletter
    have hs : Scan.number (num.text ++ rest) = .ok ⟨num.value, num.text.length, rest⟩ :=
      Scan.number_eq_ok_iff.mpr ⟨num, rfl, rfl, rfl, hrest.stops_isDigit, fun _ => hrest.stops_point⟩
    rw [he, hs]
  | @string body hquote =>
    have hfirst : ∀ {p : Char → Bool}, p Scan.quote = false →
        Stops p (Scan.quote :: (body ++ [Scan.quote]) ++ rest) := stops_cons.mpr
    obtain ⟨e, he⟩ := Scan.boolean_fails (hfirst (by decide))
    obtain ⟨e', he'⟩ := Scan.number_fails (hfirst (by decide)) (hfirst (by decide))
    have hs : Scan.string (Scan.quote :: (body ++ [Scan.quote]) ++ rest) = .ok ⟨body, body.length + 2, rest⟩ :=
      Scan.string_eq_ok_iff.mpr ⟨by simp, hquote, rfl⟩
    rw [he, he', hs]

/-! ### Single operands -/

theorem spellsOperand_of_parse {a : Operand} (h : Operand.parse cs = .ok (some (a, rest))) :
    ∃ w, cs = w ++ rest ∧ SpellsOperand w a := by
  unfold Operand.parse at h
  split at h
  · next s hs =>
    obtain ⟨⟨⟩, n, r⟩ := s
    obtain ⟨rfl, -, -⟩ := Scan.lone_eq_ok_iff.mp hs
    obtain ⟨⟨v, r'⟩, hv, hr⟩ := bind_eq_ok_iff.mp h
    simp only [pure_eq_ok, Except.ok.injEq, Option.some.injEq, Prod.mk.injEq] at hr
    obtain ⟨rfl, rfl⟩ := hr
    obtain ⟨w, hsplit, hw⟩ := spellsLiteral_of_parseLiteral hv
    exact ⟨'#' :: w, congrArg ('#' :: ·) hsplit, .immediate hw⟩
  · split at h
    · next s hs =>
      obtain ⟨w, n, r⟩ := s
      obtain ⟨rfl, hw, -, -⟩ := Scan.register_eq_ok_iff.mp hs
      simp only [Except.ok.injEq, Option.some.injEq, Prod.mk.injEq] at h
      obtain ⟨rfl, rfl⟩ := h
      exact ⟨'$' :: w, rfl, .register hw⟩
    · split at h
      · next s hs =>
        obtain ⟨w, n, r⟩ := s
        obtain ⟨rfl, hw, -, -⟩ := Scan.word_eq_ok_iff.mp hs
        simp only [Except.ok.injEq, Option.some.injEq, Prod.mk.injEq] at h
        obtain ⟨rfl, rfl⟩ := h
        exact ⟨w, rfl, .direct hw⟩
      · simp at h

theorem suffix_of_parseOperand {a : Operand} (h : Operand.parse cs = .ok (some (a, rest))) : rest <:+ cs := by
  obtain ⟨w, rfl, -⟩ := spellsOperand_of_parse h
  exact List.suffix_append w rest

theorem parse_of_spellsOperand {a : Operand} (h : SpellsOperand w a) (hrest : Boundary rest) :
    Operand.parse (w ++ rest) = .ok (some (a, rest)) := by
  unfold Operand.parse
  cases h with
  | @immediate lit v hlit =>
    have hhash : Stops (· == '#') (lit ++ rest) := by
      obtain ⟨c, cs, rfl, hc⟩ := hlit.exists_cons
      refine stops_cons.mpr (beq_eq_false_iff_ne.mpr ?_)
      rintro rfl
      exact absurd hc (by decide)
    have hs : Scan.hash ('#' :: lit ++ rest) = .ok ⟨(), 1, lit ++ rest⟩ :=
      Scan.lone_eq_ok_iff.mpr ⟨rfl, hhash, rfl⟩
    simp only [hs, parseLiteral_of_spellsLiteral hlit hrest]
    rfl
  | @register name hname =>
    have hhash : Stops (· == '#') ('$' :: name ++ rest) := stops_cons.mpr (by decide)
    obtain ⟨e, he⟩ := Scan.lone_fails hhash
    have hs : Scan.register ('$' :: name ++ rest) = .ok ⟨name, 1 + name.length, rest⟩ :=
      Scan.register_eq_ok_iff.mpr ⟨rfl, hname, hrest.stops_identifierBody, rfl⟩
    simp only [Scan.hash, he, hs]
  | direct hname =>
    have hhash : Stops (· == '#') (w ++ rest) := Scan.identifier_stops_of_not_start (by decide) hname
    have hdollar : Stops (· == '$') (w ++ rest) := Scan.identifier_stops_of_not_start (by decide) hname
    obtain ⟨e, he⟩ := Scan.lone_fails hhash
    obtain ⟨e', he'⟩ := Scan.register_fails hdollar
    have hs : Scan.identifier (w ++ rest) = .ok ⟨w, w.length, rest⟩ :=
      Scan.word_eq_ok_iff.mpr ⟨rfl, hname, hrest.stops_identifierBody, rfl⟩
    simp only [Scan.hash, he, he', hs]

/-- A text that begins like no operand has none. -/
theorem parse_eq_none (hhash : Stops (· == '#') cs) (hdollar : Stops (· == '$') cs)
    (hstart : Stops Scan.isIdentifierStart cs) : Operand.parse cs = .ok none := by
  obtain ⟨e, he⟩ := Scan.lone_fails hhash
  obtain ⟨e', he'⟩ := Scan.register_fails hdollar
  have hidentifier : ∃ e, Scan.identifier cs = .error e := Scan.word_fails hstart
  obtain ⟨e'', he''⟩ := hidentifier
  simp only [Operand.parse, Scan.hash, he, he', he'']

/-! ### Operands and what may stand around them -/

/-- An operand does not begin with a character in `p` if no sigil and no identifier does. -/
theorem SpellsOperand.stops {a : Operand} {p : Char → Bool} (h : SpellsOperand w a) (hhash : p '#' = false)
    (hdollar : p '$' = false) (hstart : ∀ c, Scan.isIdentifierStart c = true → p c = false) :
    Stops p (w ++ rest) := by
  cases h with
  | immediate hlit => exact stops_cons.mpr hhash
  | register hname => exact stops_cons.mpr hdollar
  | direct hname =>
    cases hname with
    | cons hc hall => exact stops_cons.mpr (hstart _ hc)

theorem SpellsOperand.stops_isBlank {a : Operand} (h : SpellsOperand w a) : Stops isBlank (w ++ rest) :=
  h.stops (by decide) (by decide) fun _ hc =>
    not_blank_of_isIdentifierBody (isIdentifierBody_of_isIdentifierStart hc)

theorem SpellsOperand.stops_comma {a : Operand} (h : SpellsOperand w a) :
    Stops (· == ',') (w ++ rest) := by
  refine h.stops (by decide) (by decide) fun c hc => beq_eq_false_iff_ne.mpr ?_
  rintro rfl
  exact absurd hc (by decide)

theorem Comment.stops {p : Char → Bool} (h : Comment cs) (hslash : p '/' = false) : Stops p cs := by
  cases h with
  | absent => exact stops_nil p
  | present tail => exact stops_cons.mpr hslash

theorem Boundary.blanks_append {g : List Char} (h : Boundary cs) (hg : Blanks g) : Boundary (g ++ cs) :=
  hg.stops_append (fun c hc => by simp [hc]) h

theorem Ending.boundary (h : Ending cs) : Boundary cs := by
  cases h with
  | mk hg hc => exact Boundary.blanks_append (hc.stops (by decide)) hg

theorem Ending.blanks_append {g : List Char} (h : Ending cs) (hg : Blanks g) : Ending (g ++ cs) := by
  cases h with
  | mk hg' hc => rw [← List.append_assoc]; exact .mk (hg.append hg') hc

theorem Ending.comment_skipBlanks (h : Ending cs) : Comment (skipBlanks cs) := by
  cases h with
  | mk hg hc => rw [skipBlanks_append hg (hc.stops (by decide))]; exact hc

/-- Operands begin with an operand, and what follows that one is a boundary. -/
theorem SpellsOperands.exists_first {ops : Operands} {e : List Char} (h : SpellsOperands w ops) (he : Boundary e) :
    ∃ v a tail, w = v ++ tail ∧ SpellsOperand v a ∧ Boundary (tail ++ e) := by
  cases h with
  | one hw => exact ⟨w, _, [], by simp, hw, he⟩
  | @two v g g' v' a b hv hg hg' hv' =>
    refine ⟨v, a, g ++ ',' :: (g' ++ v'), by simp, hv, ?_⟩
    rw [List.append_assoc]
    exact Boundary.blanks_append (stops_cons.mpr (by decide)) hg

theorem spellsOperands_of_parse {ops : Operands} (h : Operands.parse cs = .ok (ops, rest)) :
    (ops = {} ∧ rest = cs) ∨ ∃ w, cs = w ++ rest ∧ SpellsOperands w ops := by
  obtain ⟨first?, hfirst, h⟩ := bind_eq_ok_iff.mp h
  cases first? with
  | none =>
    simp only [pure_eq_ok, Except.ok.injEq, Prod.mk.injEq] at h
    exact .inl ⟨h.1.symm, h.2.symm⟩
  | some first =>
    obtain ⟨a, afterFirst⟩ := first
    obtain ⟨w, rfl, hw⟩ := spellsOperand_of_parse hfirst
    right
    simp only at h
    split at h
    · simp only [pure_eq_ok, Except.ok.injEq, Prod.mk.injEq] at h
      obtain ⟨rfl, rfl⟩ := h
      exact ⟨w, rfl, .one hw⟩
    · next s hs =>
      obtain ⟨⟨⟩, n, r⟩ := s
      obtain ⟨hcomma, -, -⟩ := Scan.lone_eq_ok_iff.mp hs
      obtain ⟨g, hsplit, hg, -⟩ := exists_skipBlanks afterFirst
      obtain ⟨g', hsplit', hg', -⟩ := exists_skipBlanks r
      obtain ⟨second?, hsecond, h⟩ := bind_eq_ok_iff.mp h
      cases second? with
      | none => simp at h
      | some second =>
        obtain ⟨b, r'⟩ := second
        simp only [pure_eq_ok, Except.ok.injEq, Prod.mk.injEq] at h
        obtain ⟨rfl, rfl⟩ := h
        obtain ⟨w', hw'_split, hw'⟩ := spellsOperand_of_parse hsecond
        refine ⟨w ++ g ++ ',' :: (g' ++ w'), ?_, .two hw hg hg' hw'⟩
        rw [hsplit, hcomma, hsplit', hw'_split]
        simp

theorem suffix_of_parseOperands {ops : Operands} (h : Operands.parse cs = .ok (ops, rest)) : rest <:+ cs := by
  rcases spellsOperands_of_parse h with ⟨-, rfl⟩ | ⟨w, rfl, -⟩
  · exact List.suffix_rfl
  · exact List.suffix_append w rest

theorem parse_of_spellsOperands {ops : Operands} {e : List Char} (h : SpellsOperands w ops) (he : Ending e) :
    Operands.parse (w ++ e) = .ok (ops, e) := by
  unfold Operands.parse
  cases h with
  | one hw =>
    obtain ⟨err, herr⟩ := Scan.lone_fails (he.comment_skipBlanks.stops (p := (· == ',')) (by decide))
    rw [parse_of_spellsOperand hw he.boundary]
    simp only [ok_bind, Scan.comma, herr]
    rfl
  | @two w g g' w' a b hw hg hg' hw' =>
    -- the comma is found past the blanks, and past the blanks after it the second operand
    have htext : w ++ g ++ ',' :: (g' ++ w') ++ e = w ++ (g ++ ',' :: (g' ++ (w' ++ e))) := by simp
    have hboundary : Boundary (g ++ ',' :: (g' ++ (w' ++ e))) :=
      Boundary.blanks_append (stops_cons.mpr (by decide)) hg
    have hskip : skipBlanks (g ++ ',' :: (g' ++ (w' ++ e))) = ',' :: (g' ++ (w' ++ e)) :=
      skipBlanks_append hg (stops_cons.mpr (by decide))
    have hcomma : Scan.comma (',' :: (g' ++ (w' ++ e))) = .ok ⟨(), 1, g' ++ (w' ++ e)⟩ :=
      Scan.lone_eq_ok_iff.mpr ⟨rfl, hg'.stops_beq_append (by decide) hw'.stops_comma, rfl⟩
    rw [htext, parse_of_spellsOperand hw hboundary]
    simp only [ok_bind, hskip, hcomma, skipBlanks_append hg' hw'.stops_isBlank]
    rw [parse_of_spellsOperand hw' he.boundary]
    rfl

/-- Where the line ends there are no operands. -/
theorem operands_parse_of_comment (h : Comment cs) : Operands.parse cs = .ok ({}, cs) := by
  unfold Operands.parse
  rw [parse_eq_none (h.stops (by decide)) (h.stops (by decide)) (h.stops (by decide))]
  rfl

end Grammar
end StackScript
