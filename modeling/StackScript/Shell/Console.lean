import StackScript.Shell.Plan

/-!
# Carrying out commands

A command needs of its surroundings that files are read and written, that texts are printed and that events are noted.
These are the operations of a `Console`, in any monad. Everything else is decided here, once for all surroundings.

A command that runs a program may take forever, so it is carried out in steps: `perform` comes to the end of the command
or to the start of the run, and from there on each `step` executes one instruction. What the run writes to the
variable that is shown is printed as it is written.
-/

namespace StackScript
namespace Shell

/-- What the surroundings do for a command. -/
structure Console (m : Type → Type) where
  read : String → m (Except FileError Bytes)
  write : String → Bytes → m (Except FileError Unit)
  print : String → m Unit
  note : Event → m Unit

/-- A command that is being carried out. -/
inductive Process where
  | ended (status : Status)
  | running (p : Program) (limits : Limits) (r : Run Store)

namespace Console

variable {m : Type → Type} [Monad m] (console : Console m)

/-- Carries out a plan, up to the start of a run. -/
def carryOut (plan : Plan) : m Process := do
  console.print plan.output
  match plan.action with
  | .done => return .ended .succeeded
  | .write file bytes =>
    match ← console.write file bytes with
    | .ok () =>
      console.print (writtenText file bytes)
      return .ended .succeeded
    | .error e => return .ended (.failed (.unwritable file e))
  | .run p limits store =>
    console.note (.run p.size)
    match Run.start? limits store with
    | some r => return .running p limits r
    | none => return .ended .aborted

/-- Carries out a plan, if there is one. -/
def follow : Except Failure Plan → m Process
  | .error e => return .ended (.failed e)
  | .ok plan => console.carryOut plan

/-- Carries out a command, up to the start of a run. -/
def dispatch (env : String → Option String) (c : Command) : m Process := do
  c.eventsBefore.forM console.note
  let contents ← console.read c.file
  (c.eventsOf contents).forM console.note
  console.follow (c.plan env contents)

/-- Carries out the command that the arguments give, up to the start of a run. -/
def perform (parse : List String → Except Exit Command) (env : String → Option String) (arguments : List String) :
    m Process := do
  match parse arguments with
  | .error x =>
    console.print x.output
    return .ended (.exited x)
  | .ok c => console.dispatch env c

/-- Shows what a step of a run has done, which is then forgotten. -/
def display (p : Program) (limits : Limits) : Progress Store → m Process
  | .running r => do
    console.print (shown r.machine.log)
    return .running p limits { r with machine.calls := [] }
  | .ended o => do
    console.print (shown o.machine.log)
    console.note o.event
    match ending o.result with
    | .ok text =>
      console.print text
      return .ended .succeeded
    | .error e => return .ended (.failed e)

/-- Takes a step of the run. -/
def step : Process → m Process
  | .ended status => return .ended status
  | .running p limits r => do
    (r.event? p limits).forM console.note
    console.display p limits (r.step p limits Host.store)

/-- Takes up to `fuel` steps of the run. -/
def steps : (fuel : Nat) → Process → m Process
  | 0, process => return process
  | fuel + 1, process => do
    let process ← console.step process
    steps fuel process

end Console
end Shell
end StackScript
