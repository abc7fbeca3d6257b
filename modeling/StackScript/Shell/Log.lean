import StackScript.Trace

/-!
# The log

Events are written to a log, a line for each, if they matter enough. The variable `RUST_LOG` of the environment says
how much that is. Without it, or if it names no level, an event is written from warnings up.
-/

namespace StackScript
namespace Log

/-- The variable that says how much is written. -/
def variableName : String := "RUST_LOG"

/-- The level that a setting names. -/
def level? (text : String) : Option Level :=
  [Level.error, .warn, .info, .debug, .trace].find? fun level =>
    level.name.toList.map Char.toLower = text.toList.map Char.toLower

/-- The least that is written. -/
def threshold (env : String → Option String) : Level := ((env variableName).bind level?).getD .warn

/-- What is written of an event. -/
def line (env : String → Option String) (e : Event) : String :=
  match e.level? with
  | none => ""
  | some level =>
    if level.rank ≤ (threshold env).rank then
      level.name ++ " " ++ e.message ++
        String.join (e.fields.map fun (name, value) => " " ++ name ++ "=" ++ value) ++ "\n"
    else ""

end Log
end StackScript
