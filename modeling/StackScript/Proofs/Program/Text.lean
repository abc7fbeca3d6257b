import StackScript.Proofs.Program.Source

/-!
# Reading the text of an instruction

In a compiled program every name is an identifier, no number is a NaN and no string has a quote or a line
break in it: the program is *legible*. Main statement (`Instr.text_injective`): a legible instruction is
known from its text, the position of a jump included.

The text falls into parts at blanks and commas. A string may hold both, but it ends at its second quote, so
the comma behind an operand can be told from one inside it (`Enclosed.eq_of_append_comma`).
-/

namespace StackScript

open Grammar

/-! ### What a script can write -/

def Value.Legible : Value → Prop
  | .undefined => False
  | .number x => x.isNaN = false
  | .boolean _ => True
  | .string s => Scan.quote ∉ s.toList ∧ '\n' ∉ s.toList

def Operand.Legible : Operand → Prop
  | .immediate value => value.Legible
  | .register name | .direct name => Identifier name.toList

def Instr.Legible : Instr → Prop
  | .push src => src.Legible
  | .pop dst => dst.operand.Legible
  | .move dst src => dst.operand.Legible ∧ src.Legible
  | .compare lhs rhs => lhs.Legible ∧ rhs.Legible
  | .adjust _ register => (Operand.register register).Legible
  | .jump _ target => (Operand.direct target.label).Legible
  | .arith _ | .negate | .logic _ | .nop => True

/-- An operand that was read from a line is legible. -/
theorem Grammar.SpellsOperand.legible {w : List Char} {a : Operand} (h : SpellsOperand w a)
    (hw : ∀ c ∈ w, Line.isBreak c = false) : a.Legible := by
  cases h with
  | immediate hlit =>
    cases hlit with
    | boolean b _ => exact trivial
    | number n => exact n.isNaN_value
    | @string cs hquote =>
      show Scan.quote ∉ (String.ofList cs).toList ∧ '\n' ∉ (String.ofList cs).toList
      rw [String.toList_ofList]
      refine ⟨hquote, fun hfeed => ?_⟩
      exact absurd (hw '\n' (by simp [hfeed])) (by decide)
  | @register cs hname =>
    show Identifier (String.ofList cs).toList
    rwa [String.toList_ofList]
  | direct hname =>
    show Identifier (String.ofList w).toList
    rwa [String.toList_ofList]

theorem Instr.legible_of_operands {i : Instr} (h : ∀ a ∈ i.operands.toList, a.Legible) : i.Legible := by
  cases i with
  | arith op => exact trivial
  | negate => exact trivial
  | logic op => exact trivial
  | nop => exact trivial
  | _ => simpa [operands, Operands.toList, Legible] using h

/-- A compiled program is legible. -/
theorem legible_of_mem_code {script : String} {p : Program} (h : Program.compile .standard script = .ok p)
    {i : Instr} (hi : i ∈ p.code) : i.Legible := by
  refine Instr.legible_of_operands fun a ha => ?_
  obtain ⟨l, hl, w, hw, hspells⟩ := exists_spells_of_mem_operands h hi ha
  exact hspells.legible fun c hc => Line.no_break_of_mem_scan hl c (hw.subset hc)

/-! ### Characters that do not occur -/

theorem Operand.text_number (x : Number) : (Operand.immediate (.number x)).text.toList = '#' :: x.text := by
  simp [text, Value.literal, Value.text]

theorem Operand.text_string (s : String) :
    (Operand.immediate (.string s)).text.toList = '#' :: Scan.quote :: (s.toList ++ [Scan.quote]) := by
  simp [text, Value.literal, Scan.quote]

theorem not_mem_of_identifier {name : List Char} (h : Identifier name) {c : Char}
    (hc : Scan.isIdentifierBody c = false) : c ∉ name := by
  intro hmem
  rw [h.all_body c hmem] at hc
  exact absurd hc (by decide)

theorem Number.not_mem_text {x : Number} {c : Char} (halnum : c.isAlphanum = false) (hmark : c ≠ '-' ∧ c ≠ '.') :
    c ∉ x.text := by
  intro hc
  rcases mem_text hc with h | h | h
  · rw [halnum] at h
    exact absurd h (by decide)
  · exact hmark.1 h
  · exact hmark.2 h

/-- The text of a legible operand stands on one line. -/
theorem Operand.Legible.no_lineFeed {a : Operand} (h : a.Legible) : '\n' ∉ a.text.toList := by
  cases a with
  | immediate value =>
    cases value with
    | undefined => exact h.elim
    | number x =>
      have hx : '\n' ∉ x.text := Number.not_mem_text (by decide) (by decide)
      rw [text_number]
      simpa using hx
    | boolean b => cases b <;> decide
    | string s =>
      have hs : '\n' ∉ s.toList := h.2
      rw [text_string]
      simpa [Scan.quote] using hs
  | register name =>
    have hname : '\n' ∉ name.toList := not_mem_of_identifier h (by decide)
    simpa [text] using hname
  | direct name => exact not_mem_of_identifier h (by decide)

/-! ### Operands -/

/-- The value that a literal stands for, also if it is infinite. -/
def Value.ofLiteral? (cs : List Char) : Option Value :=
  if cs = "true".toList then some (.boolean true)
  else if cs = "false".toList then some (.boolean false)
  else if cs.head? = some Scan.quote then some (.string (String.ofList cs.tail.dropLast))
  else (Number.parse? cs).map .number

/-- The operand with a given text. -/
def Operand.ofText? (cs : List Char) : Option Operand :=
  if cs.head? = some '#' then (Value.ofLiteral? cs.tail).map .immediate
  else if cs.head? = some '$' then some (.register (String.ofList cs.tail))
  else some (.direct (String.ofList cs))

theorem Value.ofLiteral?_number {x : Number} (hx : x.isNaN = false) : ofLiteral? x.text = some (.number x) := by
  have hread := Number.parse?_text hx
  have htrue : x.text ≠ "true".toList := by
    intro h
    rw [h, show Number.parse? "true".toList = none by decide] at hread
    cases hread
  have hfalse : x.text ≠ "false".toList := by
    intro h
    rw [h, show Number.parse? "false".toList = none by decide] at hread
    cases hread
  have hquote : x.text.head? ≠ some Scan.quote := by
    intro h
    exact Number.not_mem_text (by decide) (by decide) (List.mem_of_mem_head? h)
  rw [ofLiteral?, if_neg htrue, if_neg hfalse, if_neg hquote, hread]
  rfl

theorem Value.ofLiteral?_string (s : String) :
    ofLiteral? (Scan.quote :: (s.toList ++ [Scan.quote])) = some (.string s) := by
  have htrue : Scan.quote :: (s.toList ++ [Scan.quote]) ≠ "true".toList := by
    intro h
    exact absurd (congrArg List.head? h) (by simp [Scan.quote])
  have hfalse : Scan.quote :: (s.toList ++ [Scan.quote]) ≠ "false".toList := by
    intro h
    exact absurd (congrArg List.head? h) (by simp [Scan.quote])
  rw [ofLiteral?, if_neg htrue, if_neg hfalse, if_pos List.head?_cons, List.tail_cons, List.dropLast_concat,
    String.ofList_toList]

/-- A legible operand is read back from its text. -/
theorem Operand.Legible.ofText? {a : Operand} (h : a.Legible) : Operand.ofText? a.text.toList = some a := by
  cases a with
  | immediate value =>
    cases value with
    | undefined => exact h.elim
    | number x =>
      rw [text_number, Operand.ofText?, if_pos List.head?_cons, List.tail_cons, Value.ofLiteral?_number h]
      rfl
    | boolean b => cases b <;> decide
    | string s =>
      rw [text_string, Operand.ofText?, if_pos List.head?_cons, List.tail_cons, Value.ofLiteral?_string]
      rfl
  | register name =>
    have htext : (Operand.register name).text.toList = '$' :: name.toList := by simp [text]
    rw [htext, Operand.ofText?, if_neg (by simp), if_pos List.head?_cons, List.tail_cons, String.ofList_toList]
  | direct name =>
    have hhead : ∀ c, Scan.isIdentifierBody c = false → name.toList.head? ≠ some c :=
      fun c hc hh => not_mem_of_identifier h hc (List.mem_of_mem_head? hh)
    show Operand.ofText? name.toList = _
    rw [Operand.ofText?, if_neg (hhead '#' (by decide)), if_neg (hhead '$' (by decide)), String.ofList_toList]

theorem Operand.text_injective {a b : Operand} (ha : a.Legible) (hb : b.Legible)
    (h : a.text.toList = b.text.toList) : a = b := by
  have hread := ha.ofText?
  rw [h, hb.ofText?] at hread
  exact (Option.some.inj hread).symm

/-! ### Two operands -/

/-- A text whose end can be told from what is in it: neither a comma nor a quote is in it, or it is a string. -/
inductive Enclosed : List Char → Prop
  | plain {w : List Char} : ',' ∉ w → Scan.quote ∉ w → Enclosed w
  | quoted {cs : List Char} : Scan.quote ∉ cs → Enclosed ('#' :: Scan.quote :: (cs ++ [Scan.quote]))

theorem append_comma_ne_quoted {w rest cs : List Char} (hcomma : ',' ∉ w) (hquote : Scan.quote ∉ w) :
    w ++ ',' :: rest ≠ '#' :: Scan.quote :: cs := by
  intro h
  match w with
  | [] => exact absurd (List.cons.inj h).1 (by decide)
  | [c] => exact absurd (List.cons.inj (List.cons.inj h).2).1 (by decide)
  | c :: d :: w =>
    have hd : d = Scan.quote := (List.cons.inj (List.cons.inj h).2).1
    exact hquote (by simp [hd])

/-- Where such a text ends is seen from the comma behind it. -/
theorem Enclosed.eq_of_append_comma {w w' rest rest' : List Char} (h : Enclosed w) (h' : Enclosed w')
    (heq : w ++ ',' :: rest = w' ++ ',' :: rest') : w = w' ∧ rest = rest' := by
  cases h with
  | plain hcomma hquote =>
    cases h' with
    | plain hcomma' _ => exact Text.eq_of_append_cons_eq hcomma hcomma' heq
    | quoted _ => exact absurd heq (append_comma_ne_quoted hcomma hquote)
  | @quoted cs hquote =>
    cases h' with
    | plain hcomma' hquote' => exact absurd heq.symm (append_comma_ne_quoted hcomma' hquote')
    | @quoted cs' hquote' =>
      have hinner : cs ++ Scan.quote :: ',' :: rest = cs' ++ Scan.quote :: ',' :: rest' := by simpa using heq
      obtain ⟨rfl, hrest⟩ := Text.eq_of_append_cons_eq hquote hquote' hinner
      exact ⟨rfl, (List.cons.inj hrest).2⟩

theorem Operand.Legible.enclosed {a : Operand} (h : a.Legible) : Enclosed a.text.toList := by
  cases a with
  | immediate value =>
    cases value with
    | undefined => exact h.elim
    | number x =>
      have hcomma : ',' ∉ x.text := Number.not_mem_text (by decide) (by decide)
      have hquote : Scan.quote ∉ x.text := Number.not_mem_text (by decide) (by decide)
      rw [text_number]
      exact .plain (by simpa using hcomma) (by simpa [Scan.quote] using hquote)
    | boolean b => cases b <;> exact .plain (by decide) (by decide)
    | string s =>
      rw [text_string]
      exact .quoted h.1
  | register name =>
    have hcomma : ',' ∉ name.toList := not_mem_of_identifier h (by decide)
    have hquote : Scan.quote ∉ name.toList := not_mem_of_identifier h (by decide)
    exact .plain (by simpa [text] using hcomma) (by simpa [text, Scan.quote] using hquote)
  | direct name => exact .plain (not_mem_of_identifier h (by decide)) (not_mem_of_identifier h (by decide))

theorem Place.operand_injective {d d' : Place} (h : d.operand = d'.operand) : d = d' := by
  cases d <;> cases d' <;> cases h <;> rfl

/-- Two operands with a comma between them. -/
theorem eq_of_two_texts {a b a' b' : Operand} (ha : a.Legible) (hb : b.Legible) (ha' : a'.Legible) (hb' : b'.Legible)
    (h : a.text.toList ++ ',' :: ' ' :: b.text.toList = a'.text.toList ++ ',' :: ' ' :: b'.text.toList) :
    a = a' ∧ b = b' := by
  obtain ⟨hfirst, hsecond⟩ := ha.enclosed.eq_of_append_comma ha'.enclosed h
  exact ⟨Operand.text_injective ha ha' hfirst, Operand.text_injective hb hb' (List.cons.inj hsecond).2⟩

/-! ### Positions of jumps -/

theorem toList_indexText (n : Nat) : (indexText n).toList = Decimal.padLeft 4 (Nat.toDigits 10 n) :=
  String.toList_ofList

theorem indexText_injective {n m : Nat} (h : indexText n = indexText m) : n = m := by
  have hdigits := congrArg Decimal.ofDigits (congrArg String.toList h)
  rwa [toList_indexText, toList_indexText, Decimal.ofDigits_padLeft, Decimal.ofDigits_padLeft,
    Decimal.ofDigits_toDigits, Decimal.ofDigits_toDigits] at hdigits

theorem no_lineFeed_of_isDigit {cs : List Char} (h : ∀ c ∈ cs, c.isDigit = true) : '\n' ∉ cs :=
  fun hmem => absurd (h '\n' hmem) (by decide)

theorem no_lineFeed_indexText (n : Nat) : '\n' ∉ (indexText n).toList := by
  rw [toList_indexText]
  exact no_lineFeed_of_isDigit fun c => Decimal.isDigit_of_mem_padLeft

theorem Target.no_lineFeed_mark (t : Target) : '\n' ∉ t.mark.toList := by
  unfold mark
  cases t.position with
  | none => decide
  | some n => simpa using no_lineFeed_indexText n

theorem Target.exists_mark_eq (t : Target) : ∃ rest, t.mark.toList = ' ' :: rest := by
  unfold mark
  cases t.position with
  | none => exact ⟨"(unresolved)".toList, by decide⟩
  | some n => exact ⟨"(@".toList ++ (indexText n).toList ++ ")".toList, by simp⟩

theorem Target.position_of_mark_eq {t t' : Target} (h : t.mark.toList = t'.mark.toList) :
    t.position = t'.position := by
  unfold mark at h
  cases hp : t.position with
  | none =>
    cases hp' : t'.position with
    | none => rfl
    | some n' => simp [hp, hp'] at h
  | some n =>
    cases hp' : t'.position with
    | none => simp [hp, hp'] at h
    | some n' =>
      have hindex : indexText n = indexText n' := by simpa [hp, hp', String.toList_inj] using h
      rw [indexText_injective hindex]

/-- A target is known from its text: the label ends at the first blank. -/
theorem Target.eq_of_text_eq {t t' : Target} (ht : Identifier t.label.toList) (ht' : Identifier t'.label.toList)
    (h : t.label.toList ++ t.mark.toList = t'.label.toList ++ t'.mark.toList) : t = t' := by
  obtain ⟨rest, hrest⟩ := t.exists_mark_eq
  obtain ⟨rest', hrest'⟩ := t'.exists_mark_eq
  have hlabel : t.label.toList = t'.label.toList := by
    rw [hrest, hrest'] at h
    exact (Text.eq_of_append_cons_eq (not_mem_of_identifier ht (by decide))
      (not_mem_of_identifier ht' (by decide)) h).1
  rw [hlabel] at h
  have hposition := position_of_mark_eq (List.append_cancel_left h)
  cases t
  cases t'
  rw [String.toList_inj] at hlabel
  simp_all

/-! ### Instructions -/

namespace Instr

theorem blank_not_mem_mnemonic (i : Instr) : ' ' ∉ i.mnemonic.toList :=
  not_mem_of_identifier (mnemonic_of_kind i.kind).identifier (by decide)

/-- What follows the name of an instruction begins with a blank, unless nothing does. -/
theorem exists_blank_eq (i : Instr) : ∃ rest, i.operands.written ++ i.mark.toList ++ [' '] = ' ' :: rest := by
  cases i with
  | arith op => exact ⟨[], by simp [operands, Operands.written, mark, target?]⟩
  | negate => exact ⟨[], by simp [operands, Operands.written, mark, target?]⟩
  | logic op => exact ⟨[], by simp [operands, Operands.written, mark, target?]⟩
  | nop => exact ⟨[], by simp [operands, Operands.written, mark, target?]⟩
  | _ => exact ⟨_, rfl⟩

/-- The name of an instruction is what its text has before the first blank. -/
theorem kind_of_text_eq {i j : Instr} (h : i.text = j.text) :
    i.kind = j.kind ∧ i.operands.written ++ i.mark.toList = j.operands.written ++ j.mark.toList := by
  have htext := congrArg String.toList h
  rw [text_eq, text_eq, List.append_assoc, List.append_assoc] at htext
  obtain ⟨rest, hrest⟩ := i.exists_blank_eq
  obtain ⟨rest', hrest'⟩ := j.exists_blank_eq
  have hblank : i.mnemonic.toList ++ ' ' :: rest = j.mnemonic.toList ++ ' ' :: rest' := by
    rw [← hrest, ← hrest', ← List.append_assoc, htext, List.append_assoc]
  obtain ⟨hmn, -⟩ := Text.eq_of_append_cons_eq i.blank_not_mem_mnemonic j.blank_not_mem_mnemonic hblank
  rw [hmn] at htext
  exact ⟨Kind.mnemonic_injective (String.toList_inj.mp hmn), List.append_cancel_left htext⟩

/-- A legible instruction is known from its text. -/
theorem text_injective {i j : Instr} (hi : i.Legible) (hj : j.Legible) (h : i.text = j.text) : i = j := by
  obtain ⟨hkind, hrest⟩ := kind_of_text_eq h
  -- Instructions of one kind have the same form, and their operands are read one by one.
  cases i with
  | push src =>
    cases j with
    | push src' =>
      have htext : src.text.toList = src'.text.toList := by
        simpa [operands, Operands.written, mark, target?] using hrest
      rw [Operand.text_injective hi hj htext]
    | _ => cases hkind
  | pop dst =>
    cases j with
    | pop dst' =>
      have htext : dst.operand.text.toList = dst'.operand.text.toList := by
        simpa [operands, Operands.written, mark, target?] using hrest
      rw [Place.operand_injective (Operand.text_injective hi hj htext)]
    | _ => cases hkind
  | move dst src =>
    cases j with
    | move dst' src' =>
      have htext : dst.operand.text.toList ++ ',' :: ' ' :: src.text.toList =
          dst'.operand.text.toList ++ ',' :: ' ' :: src'.text.toList := by
        simpa [operands, Operands.written, mark, target?] using hrest
      obtain ⟨hdst, hsrc⟩ := eq_of_two_texts hi.1 hi.2 hj.1 hj.2 htext
      rw [Place.operand_injective hdst, hsrc]
    | _ => cases hkind
  | compare lhs rhs =>
    cases j with
    | compare lhs' rhs' =>
      have htext : lhs.text.toList ++ ',' :: ' ' :: rhs.text.toList =
          lhs'.text.toList ++ ',' :: ' ' :: rhs'.text.toList := by
        simpa [operands, Operands.written, mark, target?] using hrest
      obtain ⟨hlhs, hrhs⟩ := eq_of_two_texts hi.1 hi.2 hj.1 hj.2 htext
      rw [hlhs, hrhs]
    | _ => cases hkind
  | adjust delta register =>
    cases j with
    | adjust delta' register' =>
      cases hkind
      have htext : register.toList = register'.toList := by
        simpa [operands, Operands.written, mark, target?, Operand.text] using hrest
      rw [String.toList_inj.mp htext]
    | _ => cases hkind
  | jump condition t =>
    cases j with
    | jump condition' t' =>
      cases hkind
      have htext : t.label.toList ++ t.mark.toList = t'.label.toList ++ t'.mark.toList := by
        simpa [operands, Operands.written, mark, target?, Operand.text] using hrest
      rw [Target.eq_of_text_eq hi hj htext]
    | _ => cases hkind
  | arith op => cases j <;> cases hkind; rfl
  | negate => cases j <;> cases hkind; rfl
  | logic op => cases j <;> cases hkind; rfl
  | nop => cases j <;> cases hkind; rfl

/-- The text of a legible instruction stands on one line. -/
theorem Legible.no_lineFeed {i : Instr} (h : i.Legible) : '\n' ∉ i.text.toList := by
  have hmn : '\n' ∉ i.mnemonic.toList := not_mem_of_identifier (mnemonic_of_kind i.kind).identifier (by decide)
  have hmark : '\n' ∉ i.mark.toList := by
    unfold mark
    cases i.target? with
    | none => exact List.not_mem_nil
    | some t => exact t.no_lineFeed_mark
  have hops : '\n' ∉ i.operands.written := by
    cases i with
    | push src => simpa [operands, Operands.written] using Operand.Legible.no_lineFeed h
    | pop dst => simpa [operands, Operands.written] using Operand.Legible.no_lineFeed h
    | move dst src => simpa [operands, Operands.written] using ⟨h.1.no_lineFeed, h.2.no_lineFeed⟩
    | compare lhs rhs => simpa [operands, Operands.written] using ⟨h.1.no_lineFeed, h.2.no_lineFeed⟩
    | adjust delta register =>
      have hregister := Operand.Legible.no_lineFeed (a := .register register) h
      simpa [operands, Operands.written] using hregister
    | jump condition t =>
      have hlabel := Operand.Legible.no_lineFeed (a := .direct t.label) h
      simpa [operands, Operands.written] using hlabel
    | _ => exact List.not_mem_nil
  rw [text_eq, List.mem_append, List.mem_append, not_or, not_or]
  exact ⟨⟨hmn, hops⟩, hmark⟩

end Instr
end StackScript
