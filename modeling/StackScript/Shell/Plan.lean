import StackScript.Assembly.Basic
import StackScript.Binary.Program
import StackScript.Machine.Run
import StackScript.Program.Listing
import StackScript.Shell.Command
import StackScript.Shell.Path
import StackScript.Trace

/-!
# What a command does

A command reads its file and then either is done, writes a file or runs a program. `Command.plan` says which,
given the contents of the file, so all that is left to do with a plan is to print, to write and to take steps.

Whatever a running program writes to the variable `out` is shown, a line for each write, and so is its result.
-/

namespace StackScript
namespace Shell

/-! ### Failures -/

/-- Why a file cannot be read or written. -/
inductive FileError where
  /-- The operating system refuses, with the number `code`. -/
  | refused (description : String) (code : Nat)
  /-- The bytes of the file are no text. -/
  | notText
deriving DecidableEq, Repr

def FileError.message : FileError → String
  | .refused description code => description ++ " (os error " ++ toString code ++ ")"
  | .notText => "stream did not contain valid UTF-8"

/-- Why a command fails. -/
inductive Failure where
  | unreadable (file : String) (e : FileError)
  | unwritable (file : String) (e : FileError)
  /-- The script is wrong, at `line` if at any. -/
  | uncompilable (file : String) (e : CompileError) (line : Option Line)
  | undecodable (file : String) (e : DecodeError)
  | faulted (e : Fault)
deriving Repr

/-- A line of a script as it is shown below the mistake in it. -/
def excerpt (l : Line) : String :=
  "\n  " ++ toString l.number ++ " | " ++ String.ofList (Text.trim l.text)

/-- The line of a script on which a mistake is reported. -/
def reportedLine? (script : String) (e : CompileError) : Option Line := do
  let number ← e.line?
  (Line.scan script.toList).find? (·.number = number)

def Failure.message : Failure → String
  | .unreadable file e => "failed to read '" ++ file ++ "': " ++ e.message
  | .unwritable file e => "failed to write '" ++ file ++ "': " ++ e.message
  | .uncompilable file e line =>
    "compile error in '" ++ file ++ "': " ++ e.message ++ (line.map excerpt).getD ""
  | .undecodable file e => "'" ++ file ++ "' is not a compiled stream: " ++ e.message
  | .faulted e => "runtime error: " ++ e.message

/-! ### Plans -/

/-- What a command does after it has read its file. -/
inductive Action where
  | done
  | write (file : String) (bytes : Bytes)
  | run (p : Program) (limits : Limits) (store : Store)

/-- A text to print, and what to do then. -/
structure Plan where
  output : String := ""
  action : Action

/-- The text that some bytes spell. -/
def decodeText (bytes : Bytes) : Except FileError String :=
  match String.fromUTF8? ⟨bytes.toArray⟩ with
  | some s => .ok s
  | none => .error .notText

/-- The program of a file that holds a script. -/
def compileFile (file : String) (contents : Except FileError Bytes) : Except Failure Program := do
  let script ← (contents.bind decodeText).mapError (.unreadable file)
  (Program.compile .standard script).mapError fun e => .uncompilable file e (reportedLine? script e)

/-- The program of a file that holds its binary form. -/
def decodeFile (file : String) (contents : Except FileError Bytes) : Except Failure Program := do
  let bytes ← contents.mapError (.unreadable file)
  (Program.decode bytes).mapError (.undecodable file)

/-- Where `build` writes: next to the script, unless told otherwise. -/
def outputFile (file : String) (output : Option String) : String :=
  output.getD (Path.withExtension file "msc")

/-- What a command does, given the environment and the contents of its file. -/
def Command.plan (env : String → Option String) (contents : Except FileError Bytes) :
    Command → Except Failure Plan
  | .run file listing options => do
    let p ← compileFile file contents
    return { output := if listing then p.listingText else ""
             action := .run p (options.limits env) options.store }
  | .check file => do
    let p ← compileFile file contents
    return { output := file ++ ": ok (" ++ toString p.size ++ " instructions)\n", action := .done }
  | .disasm file => do
    let p ← compileFile file contents
    return { output := p.listingText, action := .done }
  | .build file output => do
    let p ← compileFile file contents
    return { action := .write (outputFile file output) p.encode }
  | .exec file options => do
    let p ← decodeFile file contents
    return { action := .run p (options.limits env) options.store }

/-! ### What is noted -/

/-- The extension of scripts. -/
def scriptExtension : String := "ms"

/-- The events before a file is read that should hold a script. -/
def nameEvents (file : String) : List Event :=
  if Path.extension? file = some scriptExtension then [] else [.otherExtension file]

/-- The events of compiling a file with the given contents. -/
def contentsEvents (contents : Except FileError Bytes) : List Event :=
  match contents.bind decodeText with
  | .ok script => Program.compileEvents .standard script
  | .error _ => []

/-- The events before a command reads its file. -/
def Command.eventsBefore : Command → List Event
  | .exec .. => []
  | c => nameEvents c.file

/-- The events between reading a file with the given contents and carrying out the plan for it. -/
def Command.eventsOf (contents : Except FileError Bytes) : Command → List Event
  | .exec .. => []
  | _ => contentsEvents contents

/-! ### What is shown -/

/-- What is shown of a file that has been written. -/
def writtenText (file : String) (bytes : Bytes) : String :=
  "wrote " ++ file ++ " (" ++ toString bytes.length ++ " bytes)\n"

/-- The variable that is shown when it is written. -/
def shownVariable : String := "out"

/-- What is shown of a request to the host. -/
def shownCall : Call → String
  | .get _ => ""
  | .set name v => if name = shownVariable then v.text ++ "\n" else ""

/-- What is shown of some requests to the host. -/
def shown (calls : List Call) : String := String.join (calls.map shownCall)

/-- What is shown of the end of a run. -/
def ending (result : Except Fault (Option Value)) : Except Failure String :=
  match result with
  | .ok none => .ok ""
  | .ok (some v) => .ok (v.text ++ "\n")
  | .error e => .error (.faulted e)

/-! ### How a command ends -/

inductive Status where
  | succeeded
  | failed (e : Failure)
  /-- There was no command to carry out. -/
  | exited (x : Exit)
  /-- The program was aborted, since there cannot be a stack of the capacity asked for. -/
  | aborted

namespace Status

def exitCode : Status → Nat
  | .succeeded => 0
  | .failed _ => 1
  | .exited x => x.code
  | .aborted => 101

/-- What is said in the end, where `abortText` is what is said when a program is aborted. -/
def message (abortText : String) : Status → String
  | .succeeded => ""
  | .failed e => "error: " ++ e.message ++ "\n"
  | .exited x => x.errors
  | .aborted => abortText

end Status

/-- What is said about a stack that there cannot be. -/
def abortText : String := "error: capacity overflow\n"

end Shell
end StackScript
