import StackScript.Value

/-!
# Faults

What can go wrong while a program runs. A fault of an instruction is reported with the place of that
instruction around it (`Fault.located`); exceeding the step limit and leaving values on the stack are
faults of the run as a whole and have no place.
-/

namespace StackScript

/-- Why a host refuses a request. -/
inductive HostFault where
  | unknownVariable (name : String)
  | readOnly (name : String)
deriving DecidableEq, Repr

def HostFault.message : HostFault → String
  | .unknownVariable name => "unknown external variable `" ++ name ++ "`"
  | .readOnly name => "external variable `" ++ name ++ "` is read-only"

inductive Fault where
  | unsetRegister (name : String)
  /-- The instruction `mnemonic` found a value of another type where it needs a number. -/
  | typeMismatch (mnemonic : String) (got : ValueType)
  | stackUnderflow
  | stackOverflow (capacity : Nat)
  | stackImbalance (depth : Nat)
  | unresolvedLabel (label : String)
  | stepLimitExceeded (limit : Nat)
  | host (fault : HostFault)
  /-- The instruction at `index`, from the script line `line`, raised `source`. -/
  | located (index line : Nat) (source : Fault)
deriving DecidableEq, Repr

namespace Fault

def message : Fault → String
  | .unsetRegister name => "register `$" ++ name ++ "` has not been set"
  | .typeMismatch mnemonic got =>
    "type error: `" ++ mnemonic ++ "` expected a number, got " ++ got.text
  | .stackUnderflow => "data stack underflow"
  | .stackOverflow capacity => "data stack overflow (capacity " ++ toString capacity ++ ")"
  | .stackImbalance depth => toString depth ++ " items remain on the data stack at halt"
  | .unresolvedLabel label => "jump to unresolved label `" ++ label ++ "`"
  | .stepLimitExceeded limit => "execution step limit exceeded (" ++ toString limit ++ ")"
  | .host fault => fault.message
  | .located index line source =>
    "at instruction " ++ toString index ++ " (line " ++ toString line ++ "): " ++ source.message

/-- Puts a place around a fault that has none yet. -/
def locate (index line : Nat) : Fault → Fault
  | .located i l source => .located i l source
  | fault => .located index line fault

/-- The fault without the places around it. -/
def root : Fault → Fault
  | .located _ _ source => source.root
  | fault => fault

end Fault
end StackScript
