import StackScript.Operand.Basic
import StackScript.Proofs.Grammar.Numeral

/-!
# The grammar of scripts

What a line of a script may look like and what it says, without a parser:

    line        = blanks [identifier ":"] blanks [instruction] blanks ["//" anything]
    instruction = mnemonic [gap operand [blanks "," blanks operand]]
    operand     = "$" identifier | identifier | "#" literal
    literal     = "true" | "false" | numeral | quote, text without a quote, quote

The words `true` and `false` may be in any case. A gap is a run of blanks; it may be empty unless
the operand after it begins with a letter, which would then belong to the mnemonic.

Each `Spells...` relation pairs a text with what it stands for. They are relations and not
functions: nothing in them says that a run is taken as long as possible, or in which order the
alternatives are tried.
-/

namespace StackScript
namespace Grammar

open Text (Blanks)

/-! ### Words -/

/-- A character in `start` and then only characters in `body`. -/
inductive Word (start body : Char → Bool) : List Char → Prop
  | cons {c : Char} {cs : List Char} : start c = true → (∀ d ∈ cs, body d = true) →
      Word start body (c :: cs)

/-- `[A-Za-z_][A-Za-z0-9_]*` -/
def Identifier : List Char → Prop := Word Scan.isIdentifierStart Scan.isIdentifierBody

/-- `[A-Za-z][A-Za-z0-9]*` -/
def Mnemonic : List Char → Prop := Word Scan.isLetter Scan.isLetterOrDigit

/-! ### Operands -/

/-- A literal, the text of an immediate value after its hash. -/
inductive SpellsLiteral : List Char → Value → Prop
  | boolean (b : Bool) {cs : List Char} :
      cs.map Char.toLower = (if b then "true".toList else "false".toList) → SpellsLiteral cs (.boolean b)
  | number (n : Numeral) : SpellsLiteral n.text (.number n.value)
  | string {cs : List Char} : Scan.quote ∉ cs →
      SpellsLiteral (Scan.quote :: (cs ++ [Scan.quote])) (.string (String.ofList cs))

inductive SpellsOperand : List Char → Operand → Prop
  | immediate {cs : List Char} {v : Value} : SpellsLiteral cs v → SpellsOperand ('#' :: cs) (.immediate v)
  | register {cs : List Char} : Identifier cs → SpellsOperand ('$' :: cs) (.register (String.ofList cs))
  | direct {cs : List Char} : Identifier cs → SpellsOperand cs (.direct (String.ofList cs))

/-- One operand, or two with a comma between them. -/
inductive SpellsOperands : List Char → Operands → Prop
  | one {w : List Char} {a : Operand} : SpellsOperand w a → SpellsOperands w { first := some a }
  | two {w g g' w' : List Char} {a b : Operand} :
      SpellsOperand w a → Blanks g → Blanks g' → SpellsOperand w' b →
      SpellsOperands (w ++ g ++ ',' :: (g' ++ w')) { first := some a, second := some b }

/-! ### Lines -/

/-- A mnemonic and its operands. -/
inductive SpellsInstr : List Char → String → Operands → Prop
  | plain {mn : List Char} : Mnemonic mn → SpellsInstr mn (String.ofList mn) {}
  | operands {mn gap w : List Char} {ops : Operands} :
      Mnemonic mn → Blanks gap → SpellsOperands w ops → ((∃ c ∈ w.head?, c.isAlpha = true) → gap ≠ []) →
      SpellsInstr (mn ++ gap ++ w) (String.ofList mn) ops

/-- The declaration of a label, or nothing. -/
inductive SpellsLabel : List Char → Option String → Prop
  | absent : SpellsLabel [] none
  | present {w : List Char} : Identifier w → SpellsLabel (w ++ [':']) (some (String.ofList w))

/-- An instruction, or nothing. -/
inductive SpellsBody : List Char → Option (String × Operands) → Prop
  | absent : SpellsBody [] none
  | present {w : List Char} {mn : String} {ops : Operands} :
      SpellsInstr w mn ops → SpellsBody w (some (mn, ops))

/-- A comment, or nothing. -/
inductive Comment : List Char → Prop
  | absent : Comment []
  | present (cs : List Char) : Comment ('/' :: '/' :: cs)

/-- What may stand after the last word of a line. -/
inductive Ending : List Char → Prop
  | mk {g c : List Char} : Blanks g → Comment c → Ending (g ++ c)

/-- A line, with the label that it declares and the mnemonic and operands that it gives. -/
inductive SpellsLine : List Char → Option String → Option (String × Operands) → Prop
  | mk {g l g' b e : List Char} {label : Option String} {body : Option (String × Operands)} :
      Blanks g → SpellsLabel l label → Blanks g' → SpellsBody b body → Ending e →
      SpellsLine (g ++ l ++ g' ++ b ++ e) label body

end Grammar
end StackScript
