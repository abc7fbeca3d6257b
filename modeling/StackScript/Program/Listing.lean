import StackScript.Program.Basic

/-!
# Listings

A listing shows a program row by row: index, script line and text of each instruction. An instruction that
some jump goes to is marked and has a banner above it with the labels of these jumps; labels that stand
for the end of the program have a closing banner.
-/

namespace StackScript
namespace Program

/-! ### Jump targets -/

/-- Adds the label of a resolved target to the labels at its position, unless it is there already or the
position lies beyond the table. -/
def addTarget (table : Array (List String)) (target : Target) : Array (List String) :=
  match target.position with
  | some position =>
    table.modify position fun labels =>
      if target.label ∈ labels then labels else labels ++ [target.label]
  | none => table

/-- For every index up to the size of the program, the labels of the jumps that go there, each once and
in the order of their first jumps. -/
def targets (p : Program) : Array (List String) :=
  (p.code.toList.filterMap Instr.target?).foldl addTarget (Array.replicate (p.size + 1) [])

/-! ### Rows -/

/-- `s` with blanks after it, to at least `width` characters. -/
def padRight (width : Nat) (s : String) : String :=
  s ++ String.ofList (List.replicate (width - s.length) ' ')

def joinLabels (labels : List String) : String := ", ".intercalate labels

/-- The row of one instruction. -/
def row (p : Program) (index : Nat) (i : Instr) (marked : Bool) : String :=
  indexText index ++ " " ++ (if marked then "►" else " ") ++ " L" ++
    padRight 4 (toString (p.line index)) ++ " " ++ i.text

/-- The rows of the instruction at `index`: a banner if jumps go there, and its own row. -/
def rows (p : Program) (table : Array (List String)) (index : Nat) (i : Instr) : List String :=
  match table[index]?.getD [] with
  | [] => [p.row index i false]
  | labels => ["      ┌─ " ++ joinLabels labels ++ ":", p.row index i true]

/-- The closing banner, if jumps go to the end of the program. -/
def closing (p : Program) (table : Array (List String)) : List String :=
  match table[p.size]?.getD [] with
  | [] => []
  | labels => ["      └─ " ++ joinLabels labels ++ ": (end)"]

/-- The lines of the listing. -/
def listing (p : Program) : List String :=
  let table := p.targets
  ["=== MICROSCRIPT STREAM ===",
    " " ++ toString p.size ++ " instructions",
    "════════════════════════════════════════"] ++
    p.code.toList.zipIdx.flatMap (fun (i, index) => p.rows table index i) ++
    p.closing table

/-- The listing as text, every line with a line feed. -/
def listingText (p : Program) : String := String.join (p.listing.map (· ++ "\n"))

end Program
end StackScript
