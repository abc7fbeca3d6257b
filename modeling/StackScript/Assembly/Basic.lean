import StackScript.Assembly.Reader
import StackScript.Program.Basic
import StackScript.Text.Line

/-!
# Assembly

A script becomes a program in two passes. The first takes the lines in order; it collects the instructions
with their lines and the labels with their positions. A label stands for the index of the next instruction,
whether on the same line or later. The second pass fills the position of its label into each jump.
-/

namespace StackScript

/-- An instruction and the line it stands on. -/
structure Placed where
  instr : Instr
  line : Nat
deriving DecidableEq, Repr

/-- A declared label: its position in the code and the line of its declaration. -/
structure Label where
  name : String
  position : Nat
  line : Nat
deriving DecidableEq, Repr

/-- What the lines read so far say. -/
structure Assembly where
  placed : Array Placed := #[]
  /-- The labels declared, latest first. -/
  labels : List Label := []
deriving DecidableEq, Repr

namespace Assembly

/-! ### First pass -/

def label? (a : Assembly) (name : String) : Option Label := a.labels.find? (·.name = name)

/-- Declares a label at the current position, unless its name is taken. -/
def declare (a : Assembly) (name : String) (line : Nat) : Except Cause Assembly :=
  match a.label? name with
  | some _ => .error (.duplicateLabel name)
  | none => .ok { a with labels := ⟨name, a.placed.size, line⟩ :: a.labels }

/-- Adds a statement. -/
def addStatement (a : Assembly) (line : Nat) (s : Statement) : Except Cause Assembly := do
  let a ←
    match s.label with
    | some name => a.declare name line
    | none => pure a
  match ← s.instr with
  | some instr => return { a with placed := a.placed.push ⟨instr, line⟩ }
  | none => return a

/-- Adds a line. -/
def addLine (set : InstrSet) (a : Assembly) (l : Line) : Except CompileError Assembly :=
  (a.addStatement l.number (.ofText set l.text)).mapError (⟨l.number, ·⟩)

/-! ### Second pass -/

/-- Fills in the position of a jump. -/
def resolve (a : Assembly) (p : Placed) : Except CompileError Instr :=
  match p.instr.target? with
  | none => .ok p.instr
  | some target =>
    match a.label? target.label with
    | some label => .ok (p.instr.withPosition (some label.position))
    | none => .error ⟨p.line, .undefinedLabel target.label⟩

/-- The program that an assembly amounts to. -/
def link (a : Assembly) : Except CompileError Program := do
  let code ← a.placed.toList.mapM a.resolve
  return { code := code.toArray, lines := a.placed.map (·.line) }

end Assembly

/-- Compiles a script over an instruction set. -/
def Program.compile (set : InstrSet) (script : String) : Except CompileError Program := do
  let a ← (Line.scan script.toList).foldlM (Assembly.addLine set) {}
  a.link

end StackScript
