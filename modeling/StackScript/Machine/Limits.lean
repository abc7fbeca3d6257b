import StackScript.Text.Blank
import StackScript.Text.Natural

/-!
# Limits of a run

How many values the stack may hold, and how many instructions may be executed. Both can be set in the
environment; a setting that is no machine natural is ignored.
-/

namespace StackScript

structure Limits where
  stackCapacity : Nat := 100
  /-- No limit if absent. -/
  maxSteps : Option Nat := none
deriving DecidableEq, Repr

namespace Limits

/-- The names of the settings. -/
def stackCapacityName : String := "MICROSCRIPT_STACK_CAPACITY"
def maxStepsName : String := "MICROSCRIPT_MAX_STEPS"

/-- A setting as a machine natural; blanks around it do not count. -/
def setting? (value : Option String) : Option Nat := do
  (Text.natural (Text.trim (← value).toList)).toOption

/-- The limits that an environment sets, the default ones where it sets none. -/
def ofEnvironment (env : String → Option String) : Limits :=
  { stackCapacity := (setting? (env stackCapacityName)).getD ({} : Limits).stackCapacity
    maxSteps := setting? (env maxStepsName) }

end Limits
end StackScript
