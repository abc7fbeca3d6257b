import StackScript.Proofs.Assembly.Passes
import StackScript.Proofs.Grammar.Line
import StackScript.Proofs.Text.Line
import Mathlib.Data.List.Nodup
import Mathlib.Data.List.Pairwise

/-!
# What lines say

The assembler reads lines with a parser; the grammar spells them. Here the labels and instructions
that the assembler takes from a line are stated by the grammar: a line that can be read declares the
label, and gives the instruction, that the grammar spells.
-/

namespace StackScript

open Grammar

theorem Grammar.SpellsOperands.exists_operand {w : List Char} {ops : Operands} {a : Operand}
    (h : SpellsOperands w ops) (ha : a ∈ ops.toList) : ∃ v, v <:+: w ∧ SpellsOperand v a := by
  cases h with
  | one hw =>
    simp only [Operands.toList, Option.toList_some, Option.toList_none, List.append_nil, List.mem_singleton] at ha
    subst ha
    exact ⟨w, List.infix_refl w, hw⟩
  | @two v g g' v' b b' hv _ _ hv' =>
    simp only [Operands.toList, Option.toList_some, List.mem_append, List.mem_singleton] at ha
    rcases ha with rfl | rfl
    · exact ⟨v, (List.prefix_append v g).isInfix.trans (List.prefix_append _ _).isInfix, hv⟩
    · refine ⟨v', ?_, hv'⟩
      exact (List.suffix_append g' v').isInfix.trans
        ((List.suffix_cons ',' _).isInfix.trans (List.suffix_append _ _).isInfix)

namespace Line

/-- The line is spelt as one that declares the label `name`. -/
def Declares (l : Line) (name : String) : Prop := ∃ body, SpellsLine l.text (some name) body

/-- The line is spelt as one that gives an instruction, with this mnemonic and these operands. -/
def Writes (l : Line) (mn : String) (ops : Operands) :
    Prop := ∃ label, SpellsLine l.text label (some (mn, ops))

variable {set : InstrSet} {l : Line} {name mn : String} {ops : Operands} {i : Instr}

theorem readable_iff :
    l.Readable set ↔ ∃ label body i?, SpellsLine l.text label body ∧
      Option.Rel (fun m j => set.Gives m.1 m.2 j) body i? := by
  constructor
  · rintro ⟨i?, hi⟩
    have hparse : Statement.parse set l.text = ⟨l.label? set, .ok i?⟩ := by
      rw [← hi]; rfl
    obtain ⟨body, hspells, hrel⟩ := parse_eq_iff.mp hparse
    exact ⟨_, body, i?, hspells, hrel⟩
  · rintro ⟨label, body, i?, hspells, hrel⟩
    exact ⟨i?, by rw [parse_of_spellsLine hspells hrel]⟩

theorem Readable.spells (h : l.Readable set) :
    ∃ body, SpellsLine l.text (l.label? set) body ∧
      Option.Rel (fun m j => set.Gives m.1 m.2 j) body (l.instr? set) := by
  obtain ⟨label, body, i?, hspells, hrel⟩ := readable_iff.mp h
  have hparse := parse_of_spellsLine hspells hrel
  have hlabel : l.label? set = label := by rw [label?, hparse]
  have hinstr : l.instr? set = i? := by rw [instr?, hparse]; rfl
  exact ⟨body, by rwa [hlabel], by rwa [hinstr]⟩

/-- The label taken from a line is the one that it is spelt to declare. -/
theorem Readable.label?_eq_some_iff (h : l.Readable set) :
    l.label? set = some name ↔ l.Declares name := by
  obtain ⟨body, hspells, -⟩ := h.spells
  constructor
  · intro hlabel
    exact ⟨body, hlabel ▸ hspells⟩
  · rintro ⟨body', hspells'⟩
    exact (hspells.unique hspells').1

/-- The instruction taken from a line is one that the set gives for what is written there. -/
theorem Readable.writes (h : l.Readable set) (hi : l.instr? set = some i) :
    ∃ mn ops, l.Writes mn ops ∧ set.Gives mn ops i := by
  obtain ⟨body, hspells, hrel⟩ := h.spells
  rw [hi] at hrel
  cases hrel with
  | @some m j hgives => exact ⟨m.1, m.2, ⟨_, hspells⟩, hgives⟩

/-- What is written on a line that can be read is in the set. -/
theorem Readable.exists_instr? (h : l.Readable set) (hw : l.Writes mn ops) :
    ∃ i, l.instr? set = some i ∧ set.Gives mn ops i := by
  obtain ⟨body, hspells, hrel⟩ := h.spells
  obtain ⟨label', hspells'⟩ := hw
  obtain ⟨-, rfl⟩ := hspells.unique hspells'
  generalize l.instr? set = i? at hrel ⊢
  cases hrel with
  | @some m j hgives => exact ⟨j, rfl, hgives⟩

theorem Writes.unique {mn' : String} {ops' : Operands} (h : l.Writes mn ops) (h' : l.Writes mn' ops') :
    mn = mn' ∧ ops = ops' := by
  obtain ⟨label, hspells⟩ := h
  obtain ⟨label', hspells'⟩ := h'
  obtain ⟨-, heq⟩ := hspells.unique hspells'
  exact Prod.mk.inj (Option.some.inj heq)

/-! ### Operands -/

/-- The operands written on a line are spelt there. -/
theorem Writes.exists_operand {a : Operand} (h : l.Writes mn ops) (ha : a ∈ ops.toList) :
    ∃ w, w <:+: l.text ∧ SpellsOperand w a := by
  obtain ⟨label, hline⟩ := h
  generalize l.text = cs at hline ⊢
  cases hline with
  | mk _ _ _ hbody _ =>
    cases hbody with
    | present hinstr =>
      cases hinstr with
      | plain _ => simp [Operands.toList] at ha
      | operands _ _ hops _ =>
        obtain ⟨w, hsub, hw⟩ := hops.exists_operand ha
        exact ⟨w, ((hsub.trans (List.suffix_append _ _).isInfix).trans (List.suffix_append _ _).isInfix).trans
          (List.prefix_append _ _).isInfix, hw⟩

/-! ### Labels of several lines -/

/-- No value is taken twice along a list without repetitions exactly if two items with one value are
the same item. -/
theorem nodup_filterMap_iff {α β : Type} {f : α → Option β} {xs : List α} (hxs : xs.Nodup) :
    (xs.filterMap f).Nodup ↔ ∀ x ∈ xs, ∀ y ∈ xs, ∀ b, f x = some b → f y = some b → x = y := by
  rw [List.Nodup, List.pairwise_filterMap]
  constructor
  · intro hpair x hx y hy b hb hb'
    have hsymm : Std.Symm (fun x y => ∀ b, f x = some b → ∀ b', f y = some b' → b ≠ b') :=
      ⟨fun x y h b hb b' hb' => (h b' hb' b hb).symm⟩
    by_contra hne
    exact hpair.forall hx hy hne b hb b hb' rfl
  · intro hall
    refine hxs.pairwise_of_forall_ne fun x hx y hy hne b hb b' hb' heq => ?_
    exact hne (hall x hx y hy b hb (heq ▸ hb'))

end Line

theorem nodup_labels_iff {set : InstrSet} {cs : List Char} (h : ∀ l ∈ Line.scan cs, l.Readable set) :
    ((Line.scan cs).filterMap (Line.label? set)).Nodup ↔
      ∀ l ∈ Line.scan cs, ∀ l' ∈ Line.scan cs, ∀ name, l.Declares name → l'.Declares name → l = l' := by
  have hnodup : (Line.scan cs).Nodup := by
    refine (Line.pairwise_number_scan cs).imp fun hlt heq => ?_
    exact absurd hlt (by simp [heq])
  rw [Line.nodup_filterMap_iff hnodup]
  constructor
  · intro hall l hl l' hl' name hname hname'
    exact hall l hl l' hl' name ((h l hl).label?_eq_some_iff.mpr hname)
      ((h l' hl').label?_eq_some_iff.mpr hname')
  · intro hall l hl l' hl' name hname hname'
    exact hall l hl l' hl' name ((h l hl).label?_eq_some_iff.mp hname)
      ((h l' hl').label?_eq_some_iff.mp hname')

theorem mem_labels_iff {set : InstrSet} {ls : List Line} (h : ∀ l ∈ ls, l.Readable set) {name : String} :
    name ∈ ls.filterMap (Line.label? set) ↔ ∃ l ∈ ls, l.Declares name := by
  rw [List.mem_filterMap]
  constructor
  · rintro ⟨l, hl, hname⟩
    exact ⟨l, hl, (h l hl).label?_eq_some_iff.mp hname⟩
  · rintro ⟨l, hl, hname⟩
    exact ⟨l, hl, (h l hl).label?_eq_some_iff.mpr hname⟩

end StackScript
