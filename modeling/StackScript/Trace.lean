import StackScript.Assembly.Basic
import StackScript.Machine.Run

/-!
# Traces

What happens while a script is compiled and while a program runs, as a list of events for an observer. A
trace follows the computation it describes step by step and ends where that ends. An event has a level, which says
how much it matters, unless it only marks where a part of the work begins.
-/

namespace StackScript

/-- How much an event matters, from the most to the least. -/
inductive Level where
  | error
  | warn
  | info
  | debug
  | trace
deriving DecidableEq, Repr

namespace Level

def rank : Level → Nat
  | .error => 0
  | .warn => 1
  | .info => 2
  | .debug => 3
  | .trace => 4

def name : Level → String
  | .error => "ERROR"
  | .warn => "WARN"
  | .info => "INFO"
  | .debug => "DEBUG"
  | .trace => "TRACE"

end Level

inductive Event where
  /-- A script is in a file whose name does not have the extension of scripts. -/
  | otherExtension (path : String)
  /-- Compilation begins. -/
  | compile
  /-- A line is read. -/
  | line (number : Nat) (text : String)
  | labelDeclared (label : String) (position : Nat)
  /-- A label is declared a second time; `first` is the line of its declaration. -/
  | labelRedeclared (label : String) (first line : Nat)
  | instruction (index : Nat) (instr : Instr)
  | labelResolved (label : String) (position : Nat)
  | compiled (instructions labels : Nat)
  /-- A run begins. -/
  | run (size : Nat)
  /-- An instruction is executed on a stack of the given depth. -/
  | step (index : Nat) (instr : Instr) (depth : Nat)
  | halted (steps : Nat) (hasResult ok : Bool)
deriving DecidableEq, Repr

namespace Event

def level? : Event → Option Level
  | .compile | .run _ => none
  | .line .. | .instruction .. | .step .. => some .trace
  | .otherExtension _ | .labelDeclared .. | .labelRedeclared .. | .labelResolved .. | .compiled .. | .halted .. =>
    some .debug

def message : Event → String
  | .otherExtension _ => "script without .ms extension"
  | .compile => "compile"
  | .line .. => "compiling line"
  | .labelDeclared .. => "label declared"
  | .labelRedeclared .. => "label redeclared"
  | .instruction .. => "instruction"
  | .labelResolved .. => "label resolved"
  | .compiled .. => "compiled"
  | .run _ => "run"
  | .step .. => "step"
  | .halted .. => "halted"

/-- The data of an event, by name. -/
def fields : Event → List (String × String)
  | .otherExtension path => [("path", path)]
  | .compile => []
  | .line number text => [("line", toString number), ("text", text)]
  | .labelDeclared label position => [("label", label), ("position", toString position)]
  | .labelRedeclared label first again => [("label", label), ("first", toString first), ("line", toString again)]
  | .instruction index instr => [("index", toString index), ("op", instr.text)]
  | .labelResolved label position => [("label", label), ("position", toString position)]
  | .compiled instructions labels => [("instructions", toString instructions), ("labels", toString labels)]
  | .run size => [("ops", toString size)]
  | .step index instr depth => [("ip", toString index), ("op", instr.text), ("depth", toString depth)]
  | .halted steps hasResult ok =>
    [("steps", toString steps), ("has_result", toString hasResult), ("ok", toString ok)]

end Event

/-! ### Compilation -/

namespace Assembly

/-- The events of reading a line. -/
def lineEvents (set : InstrSet) (a : Assembly) (l : Line) : List Event :=
  let s := Statement.ofText set l.text
  let instruction :=
    match s.instr with
    | .ok (some instr) => [.instruction a.placed.size instr]
    | _ => []
  .line l.number (String.ofList l.text) ::
    match s.label with
    | none => instruction
    | some name =>
      match a.label? name with
      | some first => [.labelRedeclared name first.line l.number]
      | none => .labelDeclared name a.placed.size :: instruction

/-- The events of resolving the jumps among `placed`. -/
def resolveEvents (a : Assembly) : List Placed → List Event
  | [] => [.compiled a.placed.size a.labels.length]
  | p :: rest =>
    match p.instr.target? with
    | none => a.resolveEvents rest
    | some target =>
      match a.label? target.label with
      | some label => .labelResolved target.label label.position :: a.resolveEvents rest
      | none => []

/-- The events of reading `lines` after what was read so far, and of resolving all jumps. -/
def events (set : InstrSet) (a : Assembly) : List Line → List Event
  | [] => a.resolveEvents a.placed.toList
  | l :: rest =>
    a.lineEvents set l ++
      match a.addLine set l with
      | .ok a => a.events set rest
      | .error _ => []

end Assembly

/-- The events of compiling a script. -/
def Program.compileEvents (set : InstrSet) (script : String) : List Event :=
  .compile :: ({} : Assembly).events set (Line.scan script.toList)

/-! ### Runs -/

/-- The event of the next step of a run, if it executes an instruction. -/
def Run.event? {σ : Type} (p : Program) (limits : Limits) (r : Run σ) : Option Event :=
  (r.next? p limits).map (.step r.index · r.machine.stack.depth)

/-- The event of the end of a run. -/
def Outcome.event {σ : Type} (o : Outcome σ) : Event :=
  match o.result with
  | .ok v => .halted o.steps v.isSome true
  | .error _ => .halted o.steps false false

end StackScript
