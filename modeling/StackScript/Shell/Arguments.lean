import StackScript.Number.Reader
import StackScript.Shell.Command
import StackScript.Text.Blank
import StackScript.Text.Natural
import StackScript.Text.Styled

/-!
# Command lines

The arguments are a verb, one file and options, in any order after the verb. An option takes its value from
the next argument or, after an equals sign, from its own; after `--` no argument is an option. Every option but
`--var` may be given once.

Arguments are read from left to right and the first mistake is reported. There are two kinds of them: a
*misuse* of the command line, and a value that its option *rejects*. A value that stands in an argument of its
own is judged only when the next argument has been recognised, so a misuse right after it comes first. An argument
that asks for help ends the reading as a mistake does.
-/

namespace StackScript
namespace Shell

/-- What a command line asks for. -/
inductive Request where
  | version
  | help
  | command (c : Command)
deriving DecidableEq, Repr

/-! ### Values of options -/

/-- Why a value is rejected. -/
inductive ValueError where
  | natural (e : Text.NaturalError)
  /-- A setting of a variable without an equals sign. -/
  | noEquals (text : String)
  /-- A setting of a variable without a name. -/
  | noName
deriving DecidableEq, Repr

def ValueError.message : ValueError → String
  | .natural e => e.message
  | .noEquals text => "expected NAME=VALUE, got `" ++ text ++ "`"
  | .noName => "variable name is empty"

/-- A value as it is given on a command line: a number or a boolean with blanks around it, or else a string. -/
def parseValue (cs : List Char) : Value :=
  let trimmed := Text.trim cs
  match Number.parse? trimmed with
  | some x => .number x
  | none =>
    if trimmed = "true".toList then .boolean true
    else if trimmed = "false".toList then .boolean false
    else .string (String.ofList cs)

/-- A setting of a variable, such as `a=1`. -/
def parseVariable (text : String) : Except ValueError (String × Value) :=
  let cs := text.toList
  match cs.dropWhile (· != '=') with
  | [] => .error (.noEquals text)
  | _ :: value =>
    match Text.trim (cs.takeWhile (· != '=')) with
    | [] => .error .noName
    | name => .ok (String.ofList name, parseValue value)

/-! ### Verbs and options -/

inductive Verb where
  | run
  | check
  | disasm
  | build
  | exec
deriving DecidableEq, Repr

def Verb.ofName? : String → Option Verb
  | "run" => some .run
  | "check" => some .check
  | "disasm" => some .disasm
  | "build" => some .build
  | "exec" => some .exec
  | _ => none

inductive Setting where
  | listing
  | binding
  | stackCapacity
  | maxSteps
  | output
deriving DecidableEq, Repr

namespace Setting

/-- The options that a verb takes. -/
def allowed : Verb → List Setting
  | .run => [.listing, .binding, .stackCapacity, .maxSteps]
  | .check => []
  | .disasm => []
  | .build => [.output]
  | .exec => [.binding, .stackCapacity, .maxSteps]

/-- The long name of an option. -/
def name : Setting → String
  | .listing => "disasm"
  | .binding => "var"
  | .stackCapacity => "stack-capacity"
  | .maxSteps => "max-steps"
  | .output => "output"

/-- What an option calls its value. -/
def valueName : Setting → String
  | .listing => ""
  | .binding => "NAME=VALUE"
  | .stackCapacity => "STACK_CAPACITY"
  | .maxSteps => "MAX_STEPS"
  | .output => "OUTPUT"

def ofName? (verb : Verb) (long : String) : Option Setting :=
  (allowed verb).find? (·.name = long)

end Setting

/-- Why the arguments are not read to their end. -/
inductive ArgumentError where
  | help
  | misuse
  | rejected (setting : Setting) (value : String) (why : ValueError)
deriving DecidableEq, Repr

/-- What `--version` shows. -/
def versionText : String := "microscript 0.1.0\n"

/-- How the program is used. -/
def usage : String :=
  "usage: microscript run FILE [--disasm] [--var NAME=VALUE]... [--stack-capacity N] [--max-steps N]\n" ++
  "       microscript check FILE\n" ++
  "       microscript disasm FILE\n" ++
  "       microscript build FILE [-o OUTPUT]\n" ++
  "       microscript exec FILE [--var NAME=VALUE]... [--stack-capacity N] [--max-steps N]\n"

/-- What is reported about a value that is rejected, as styled text. -/
def rejection (setting : Setting) (value : String) (why : ValueError) : String :=
  Styled.bold (Styled.red "error:") ++ " invalid value '" ++ Styled.yellow value ++ "' for '" ++
    Styled.bold ("--" ++ setting.name ++ " <" ++ setting.valueName ++ ">") ++ "': " ++ why.message ++
    "\n\nFor more information, try '" ++ Styled.bold "--help" ++ "'.\n"

/-- How the program ends if its arguments are not read to their end. The escape sequences in a rejected value have their
effect on the report and so do not show. -/
def ArgumentError.exit : ArgumentError → Exit
  | .help => { output := usage, code := 0 }
  | .misuse => { errors := usage, code := 2 }
  | .rejected setting value why => { errors := Styled.plain (rejection setting value why), code := 2 }

/-! ### Single arguments -/

/-- What an argument is by itself. -/
inductive Argument where
  | plain (text : String)
  /-- The mark after which no argument is an option. -/
  | separator
  /-- An option without a value. -/
  | flag (setting : Setting)
  /-- An option whose value is the next argument. -/
  | option (setting : Setting)
  /-- An option with its value. -/
  | attached (setting : Setting) (value : String)
  | help
  | unknown
deriving DecidableEq, Repr

namespace Argument

/-- A long option, given what follows its two dashes. -/
def long (verb : Verb) (cs : List Char) : Argument :=
  if cs = "help".toList then .help
  else
    match Setting.ofName? verb (String.ofList (cs.takeWhile (· != '='))), cs.dropWhile (· != '=') with
    | none, _ => .unknown
    | some .listing, [] => .flag .listing
    | some .listing, _ => .unknown
    | some setting, [] => .option setting
    | some setting, _ :: value => .attached setting (String.ofList value)

/-- A short option, given what follows its dash: `h` for help, or `o` for the output. -/
def short (verb : Verb) (cs : List Char) : Argument :=
  if cs.head? = some 'h' then .help
  else if Setting.output ∈ Setting.allowed verb then
    match cs with
    | ['o'] => .option .output
    | 'o' :: '=' :: value => .attached .output (String.ofList value)
    | 'o' :: value => .attached .output (String.ofList value)
    | _ => .unknown
  else .unknown

def read (verb : Verb) (text : String) : Argument :=
  match text.toList with
  | ['-', '-'] => .separator
  | '-' :: '-' :: cs => long verb cs
  | ['-'] => .plain text
  | '-' :: cs => short verb cs
  | _ => .plain text

end Argument

/-- Whether a text cannot be the value of the option before it. -/
def looksLikeOption (text : String) : Bool :=
  match text.toList with
  | '-' :: _ :: _ => true
  | _ => false

/-! ### All arguments -/

/-- What the arguments read so far say. -/
structure Draft where
  file : Option String := none
  listing : Bool := false
  options : RunOptions := {}
  output : Option String := none
deriving DecidableEq, Repr

namespace Draft

def setFile (d : Draft) (file : String) : Except ArgumentError Draft :=
  if d.file.isSome || file.isEmpty then .error .misuse else .ok { d with file := some file }

def setListing (d : Draft) : Except ArgumentError Draft :=
  if d.listing then .error .misuse else .ok { d with listing := true }

def setOutput (d : Draft) (file : String) : Except ArgumentError Draft :=
  if d.output.isSome || file.isEmpty then .error .misuse else .ok { d with output := some file }

/-- A natural given to `setting`, which has the value `old` so far. -/
def natural (setting : Setting) (old : Option Nat) (value : String) : Except ArgumentError Nat :=
  if old.isSome then .error .misuse
  else (Text.natural value.toList).mapError fun e => .rejected setting value (.natural e)

/-- Gives a value to an option. -/
def setValue (d : Draft) (setting : Setting) (value : String) : Except ArgumentError Draft :=
  match setting with
  | .listing => .error .misuse
  | .output => d.setOutput value
  | .binding => do
    let v ← (parseVariable value).mapError (.rejected setting value)
    return { d with options.bindings := d.options.bindings ++ [v] }
  | .stackCapacity => do
    let n ← natural setting d.options.stackCapacity value
    return { d with options.stackCapacity := some n }
  | .maxSteps => do
    let n ← natural setting d.options.maxSteps value
    return { d with options.maxSteps := some n }

/-- Reports a mistake that waits to be reported. -/
def settle : Option ArgumentError → Except ArgumentError Unit
  | none => .ok ()
  | some e => .error e

/-- Adds the remaining arguments. What is wrong with the value before them, if anything, is `pending`: it is
reported as soon as an argument is recognised or none is left. -/
def addAll (verb : Verb) (optionsOver : Bool) (pending : Option ArgumentError) (d : Draft) :
    List String → Except ArgumentError Draft
  | [] => do
    settle pending
    return d
  | text :: rest =>
    match if optionsOver then .plain text else Argument.read verb text with
    | .unknown => .error .misuse
    | .help => do
      settle pending
      throw .help
    | .separator => addAll verb true pending d rest
    | .plain file =>
      if d.file.isSome then .error .misuse
      else do
        settle pending
        addAll verb optionsOver none (← d.setFile file) rest
    | .flag _ => do
      settle pending
      addAll verb optionsOver none (← d.setListing) rest
    | .attached setting value => do
      settle pending
      addAll verb optionsOver none (← d.setValue setting value) rest
    | .option setting => do
      settle pending
      match rest with
      | [] => throw .misuse
      | value :: rest =>
        if looksLikeOption value then throw .misuse
        else
          match d.setValue setting value with
          | .ok d => addAll verb optionsOver none d rest
          | .error e => addAll verb optionsOver (some e) d rest

/-- The command that a draft amounts to, if it names a file. -/
def command? (verb : Verb) (d : Draft) : Option Command := do
  let file ← d.file
  match verb with
  | .run => return .run file d.listing d.options
  | .check => return .check file
  | .disasm => return .disasm file
  | .build => return .build file d.output
  | .exec => return .exec file d.options

end Draft

/-- Whether the first argument asks for the version. -/
def asksVersion (first : String) : Bool := first = "--version" || "-V".toList.isPrefixOf first.toList

/-- Whether the arguments are the verb `help`, alone or with the verb that help is asked for. -/
def isHelpVerb : List String → Bool
  | ["help"] => true
  | ["help", verb] => verb = "help" || (Verb.ofName? verb).isSome
  | _ => false

/-- Whether the first argument asks for help. -/
def asksHelp (first : String) : Bool := first = "--help" || "-h".toList.isPrefixOf first.toList

/-- Reads a command line. -/
def Request.parse : List String → Except ArgumentError Request
  | [] => .error .misuse
  | first :: rest =>
    if asksVersion first then .ok .version
    else if asksHelp first then .ok .help
    else
      match Verb.ofName? first with
      | none => if isHelpVerb (first :: rest) then .ok .help else .error .misuse
      | some verb => do
        let d ← Draft.addAll verb false none {} rest
        match d.command? verb with
        | some c => return .command c
        | none => throw .misuse

/-- The command that the arguments give. -/
def Command.parse (arguments : List String) : Except Exit Command :=
  match Request.parse arguments with
  | .ok (.command c) => .ok c
  | .ok .version => .error { output := versionText, code := 0 }
  | .ok .help => .error { output := usage, code := 0 }
  | .error e => .error e.exit

end Shell
end StackScript
