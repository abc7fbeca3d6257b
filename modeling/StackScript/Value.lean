import StackScript.Number.Printer

/-!
# Values

What a script computes with: numbers, booleans, strings, and the value `undefined`, which no script can
write but a host or a stored program can supply.
-/

namespace StackScript

inductive Value where
  | undefined
  | number (x : Number)
  | boolean (b : Bool)
  | string (s : String)
deriving DecidableEq, Repr

/-- The types of values. -/
inductive ValueType where
  | undefined
  | number
  | boolean
  | string
deriving DecidableEq, Repr

def ValueType.text : ValueType → String
  | .undefined => "undefined"
  | .number => "number"
  | .boolean => "boolean"
  | .string => "string"

namespace Value

instance : Inhabited Value := ⟨.undefined⟩

def type : Value → ValueType
  | .undefined => .undefined
  | .number _ => .number
  | .boolean _ => .boolean
  | .string _ => .string

def number? : Value → Option Number
  | .number x => some x
  | _ => none

/-- The truth of a value: `undefined`, `false`, zero and the empty string are false. A NaN is true. -/
def truthy : Value → Bool
  | .undefined => false
  | .number x => !x.isZero
  | .boolean b => b
  | .string s => !s.isEmpty

/-- Equality of values, with numbers compared by value. -/
def eq : Value → Value → Bool
  | .number x, .number y => x.eq y
  | v, w => decide (v = w)

/-- The text of a value; a string stands for itself. -/
def text : Value → String
  | .undefined => "undefined"
  | .number x => String.ofList x.text
  | .boolean true => "true"
  | .boolean false => "false"
  | .string s => s

/-- A value as it is written in an operand: after a hash, and a string in quotes. -/
def literal : Value → String
  | .string s => "#\"" ++ s ++ "\""
  | v => "#" ++ v.text

end Value
end StackScript
