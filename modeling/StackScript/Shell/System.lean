import StackScript.Shell.Console

/-!
# Commands on a system

What a command prints, logs and writes as a function of its arguments, the environment and the files. The system
that it runs on is a parameter: how the arguments are read, what reading and writing do to the files, what the log writes
of an event and what is said when the program is aborted. Nothing is assumed about any of these here.

A command that runs a program need not end, so it takes a bound on the number of steps.
-/

namespace StackScript
namespace Shell

/-- A system with files in `σ`. -/
structure System (σ : Type) where
  /-- The command that the arguments give. -/
  parse : List String → Except Exit Command
  read : String → σ → Except FileError Bytes
  /-- The outcome of writing, and the files afterwards. -/
  write : String → Bytes → σ → Except FileError Unit × σ
  /-- What the log writes of an event, in some environment, where so many events came before. -/
  log : (String → Option String) → Nat → Event → String
  /-- What is said when the program is aborted. -/
  abortText : (String → Option String) → String

/-- What a command has done so far. -/
structure Scene (σ : Type) where
  files : σ
  output : String := ""
  /-- The events noted, latest first. -/
  events : List Event := []

/-- What a command leaves. -/
structure Report (σ : Type) where
  output : String
  /-- The events noted, in order. -/
  events : List Event
  status : Status
  files : σ

/-- The report of a command that has ended. -/
def Process.report? {σ : Type} : Process → Scene σ → Option (Report σ)
  | .ended status, s => some ⟨s.output, s.events.reverse, status, s.files⟩
  | .running .., _ => none

namespace System

variable {σ : Type} (sys : System σ)

/-- The system as the surroundings of a command. -/
def console : Console (StateM (Scene σ)) where
  read path := do return sys.read path (← get).files
  write path bytes := do
    let s ← get
    let (outcome, files) := sys.write path bytes s.files
    set { s with files }
    return outcome
  print text := modify fun s => { s with output := s.output ++ text }
  note e := modify fun s => { s with events := e :: s.events }

/-- Carries out a command line, unless it starts a run that does not end within `fuel` steps. -/
def perform? (env : String → Option String) (fuel : Nat) (arguments : List String) (files : σ) :
    Option (Report σ) :=
  let r := (sys.console.perform sys.parse env arguments >>= sys.console.steps fuel).run { files }
  r.1.report? r.2

/-- What the log writes of some events that come after `n` others. -/
def logText (env : String → Option String) (n : Nat) : List Event → String
  | [] => ""
  | e :: events => sys.log env n e ++ logText env (n + 1) events

/-- What a command writes to its error output: the log, and what is said in the end. -/
def errors (env : String → Option String) (r : Report σ) : String :=
  sys.logText env 0 r.events ++ r.status.message (sys.abortText env)

/-- What is seen of a command: its output, its error output and its exit code. -/
def seen (env : String → Option String) (r : Report σ) : String × String × Nat :=
  (r.output, sys.errors env r, r.status.exitCode)

end System
end Shell
end StackScript
