import StackScript.Binary.Codec
import StackScript.Program.Basic

/-!
# Stored programs

The binary form of a program: its code, then its lines. Each alternative of a type has a tag, and its
parts follow in order. `Program.decode` reads what `Program.encode` writes, and ignores bytes after it.
-/

namespace StackScript
namespace Binary

/-! ### Values and operands -/

def writeValue : Value → Bytes
  | .undefined => writeNat 0
  | .number x => writeNat 1 ++ writeWord x.bits
  | .boolean b => writeNat 2 ++ writeBool b
  | .string s => writeNat 3 ++ writeString s

def readValue : Reader Value := do
  match ← readNat tag with
  | 0 => return .undefined
  | 1 => return .number ⟨← readWord⟩
  | 2 => return .boolean (← readBool)
  | 3 => return .string (← readString)
  | _ => throw .unknownTag

def writeOperand : Operand → Bytes
  | .immediate value => writeNat 0 ++ writeValue value
  | .register name => writeNat 1 ++ writeString name
  | .direct name => writeNat 2 ++ writeString name

def readOperand : Reader Operand := do
  match ← readNat tag with
  | 0 => return .immediate (← readValue)
  | 1 => return .register (← readString)
  | 2 => return .direct (← readString)
  | _ => throw .unknownTag

def writePlace : Place → Bytes
  | .register name => writeNat 0 ++ writeString name
  | .direct name => writeNat 1 ++ writeString name

def readPlace : Reader Place := do
  match ← readNat tag with
  | 0 => return .register (← readString)
  | 1 => return .direct (← readString)
  | _ => throw .unknownTag

def writeTarget (t : Target) : Bytes := writeString t.label ++ writeOption writeNat t.position

def readTarget : Reader Target := do
  let label ← readString
  let position ← readOption (readNat word)
  return { label, position }

/-! ### Instructions -/

/-- The tag of a kind of instruction. -/
def kindTag : Kind → Nat
  | .push => 0
  | .pop => 1
  | .move => 2
  | .compare => 3
  | .arith .add => 4
  | .arith .sub => 5
  | .arith .mul => 6
  | .arith .div => 7
  | .negate => 8
  | .adjust .inc => 9
  | .adjust .dec => 10
  | .logic .and => 11
  | .logic .or => 12
  | .jump .always => 13
  | .jump .falsy => 14
  | .jump .truthy => 15
  | .nop => 16

/-- The kinds of instruction in the order of their tags. -/
def kinds : Array Kind :=
  #[.push, .pop, .move, .compare, .arith .add, .arith .sub, .arith .mul, .arith .div, .negate,
    .adjust .inc, .adjust .dec, .logic .and, .logic .or, .jump .always, .jump .falsy, .jump .truthy,
    .nop]

/-- The parts of an instruction, without its tag. -/
def writeParts : Instr → Bytes
  | .push src => writeOperand src
  | .pop dst => writePlace dst
  | .move dst src => writePlace dst ++ writeOperand src
  | .compare lhs rhs => writeOperand lhs ++ writeOperand rhs
  | .adjust _ register => writeString register
  | .jump _ target => writeTarget target
  | .arith _ | .negate | .logic _ | .nop => []

def writeInstr (i : Instr) : Bytes := writeNat (kindTag i.kind) ++ writeParts i

/-- Reads the parts of an instruction of a given kind. -/
def readParts : Kind → Reader Instr
  | .push => return .push (← readOperand)
  | .pop => return .pop (← readPlace)
  | .move => return .move (← readPlace) (← readOperand)
  | .compare => return .compare (← readOperand) (← readOperand)
  | .arith op => return .arith op
  | .negate => return .negate
  | .adjust delta => return .adjust delta (← readString)
  | .logic op => return .logic op
  | .jump condition => return .jump condition (← readTarget)
  | .nop => return .nop

def readInstr : Reader Instr := do
  match kinds[← readNat tag]? with
  | some kind => readParts kind
  | none => throw .unknownTag

/-! ### Programs -/

def writeProgram (p : Program) : Bytes :=
  writeArray writeInstr p.code ++ writeArray writeNat p.lines

def readProgram : Reader Program := do
  let code ← readArray readInstr
  let lines ← readArray (readNat word)
  return { code, lines }

end Binary

namespace Program

def encode (p : Program) : Bytes := Binary.writeProgram p

/-- Reads the program at the front of `bytes`. -/
def decode (bytes : Bytes) : Except DecodeError Program :=
  (Binary.readProgram.run bytes).map (·.1)

end Program
end StackScript
