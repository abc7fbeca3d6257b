import StackScript.Shell.Arguments
import StackScript.Shell.Console
import StackScript.Shell.Log

/-!
# The command line

Carries out the command that the arguments give. The files and the terminal are the operating system's;
everything else is decided by `Console.perform` and `Console.step`.
-/

namespace StackScript
namespace Shell

/-- What the operating system says about a file. -/
def fileError : IO.Error → FileError
  | .noFileOrDirectory _ code details => .refused details code.toNat
  | .inappropriateType _ code details => .refused details code.toNat
  | .permissionDenied _ code details => .refused details code.toNat
  | .resourceExhausted _ code details => .refused details code.toNat
  | .invalidArgument _ code details => .refused details code.toNat
  | .hardwareFault code details => .refused details code.toNat
  | .resourceBusy code details => .refused details code.toNat
  | .otherError code details => .refused details code.toNat
  | e => .refused (toString e) 0

def readFile (path : String) : IO (Except FileError Bytes) := do
  try
    return .ok (← IO.FS.withFile path .read fun h => h.readBinToEnd).toList
  catch e => return .error (fileError e)

def writeFile (path : String) (bytes : Bytes) : IO (Except FileError Unit) := do
  try
    IO.FS.writeBinFile path ⟨bytes.toArray⟩
    return .ok ()
  catch e => return .error (fileError e)

/-- The operating system as the surroundings of a command. -/
def terminal (env : String → Option String) : Console IO where
  read := readFile
  write := writeFile
  print := IO.print
  note e := IO.eprint (Log.line env e)

/-- Takes a command to its end. -/
partial def finish (console : Console IO) : Process → IO Status
  | .ended status => return status
  | process => do finish console (← console.step process)

end Shell
end StackScript

open StackScript in
def main (arguments : List String) : IO UInt32 := do
  let names := [Limits.stackCapacityName, Limits.maxStepsName, Log.variableName]
  let values ← names.mapM fun name => IO.getEnv name
  let env := fun name => ((names.zip values).find? (·.1 == name)).bind (·.2)
  let console := Shell.terminal env
  let status ← Shell.finish console (← console.perform Shell.Command.parse env arguments)
  (← IO.getStdout).flush
  IO.eprint (status.message Shell.abortText)
  return status.exitCode.toUInt32
