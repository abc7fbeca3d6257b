import StackScript.Machine.Host
import StackScript.Machine.Limits

/-!
# Commands

What the program can be asked to do. The arguments either give a command, or they ask for nothing that is to be carried
out (`Exit`): the program shows its version or how it is used, or it reports what is wrong with the arguments.
-/

namespace StackScript
namespace Shell

/-- How a program is to be run. -/
structure RunOptions where
  /-- The variables set before the run, in order. -/
  bindings : List (String × Value) := []
  stackCapacity : Option Nat := none
  maxSteps : Option Nat := none
deriving DecidableEq, Repr

namespace RunOptions

/-- The limits of the run. The options go before the environment. -/
def limits (o : RunOptions) (env : String → Option String) : Limits :=
  let base := Limits.ofEnvironment env
  { stackCapacity := o.stackCapacity.getD base.stackCapacity
    maxSteps := o.maxSteps.or base.maxSteps }

/-- The store that the run starts with. -/
def store (o : RunOptions) : Store := .ofList o.bindings

end RunOptions

inductive Command where
  /-- Compiles a script and runs it, after showing its listing if asked to. -/
  | run (file : String) (listing : Bool) (options : RunOptions)
  /-- Compiles a script. -/
  | check (file : String)
  /-- Compiles a script and shows its listing. -/
  | disasm (file : String)
  /-- Compiles a script and writes its binary form. -/
  | build (file : String) (output : Option String)
  /-- Runs a program in binary form. -/
  | exec (file : String) (options : RunOptions)
deriving DecidableEq, Repr

/-- The file that a command reads. -/
def Command.file : Command → String
  | .run file .. => file
  | .check file => file
  | .disasm file => file
  | .build file _ => file
  | .exec file _ => file

/-- How the program ends if its arguments give no command. -/
structure Exit where
  output : String := ""
  errors : String := ""
  code : Nat
deriving DecidableEq, Repr

end Shell
end StackScript
