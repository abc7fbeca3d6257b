import StackScript.Instr.Basic
import StackScript.Operand.Mode
import StackScript.Table

/-!
# Instruction sets

An instruction set says which mnemonics a script may use, with operands of which mode, and what kind of
instruction each of these is. It is given as a list of entries and kept grouped by mnemonic; within a
group the entries keep the order of the list, and an earlier entry takes precedence over a later one.
-/

namespace StackScript

/-- A mnemonic with the mode of its operands, and what it stands for. -/
structure Entry where
  mnemonic : String
  mode : Mode
  kind : Kind
deriving DecidableEq, Repr

/-- Why an instruction is not in a set. -/
inductive LookupError where
  | unknownMnemonic
  | unsupportedMode
deriving DecidableEq, Repr

/-- The entries of an instruction set, grouped by mnemonic. -/
structure InstrSet where
  groups : Table (List Entry)

namespace InstrSet

/-- The entries with a given mnemonic, in order. -/
def entries (s : InstrSet) (mnemonic : String) : List Entry := (s.groups.get? mnemonic).getD []

/-- Adds an entry behind those with its mnemonic. -/
def add (s : InstrSet) (e : Entry) : InstrSet :=
  ⟨s.groups.insert e.mnemonic (s.entries e.mnemonic ++ [e])⟩

def ofList (l : List Entry) : InstrSet := l.foldl add ⟨∅⟩

/-- The mnemonics of a set, in order. -/
def mnemonics (s : InstrSet) : List String := s.groups.names

/-- The entry for a mnemonic with operands of a given mode: the first with exactly this mode, or else,
for a lone direct operand, the first that takes a label. -/
def resolve (s : InstrSet) (mnemonic : String) (mode : Mode) : Except LookupError Entry :=
  match s.groups.get? mnemonic with
  | none => .error .unknownMnemonic
  | some group =>
    match group.find? (·.mode = mode) with
    | some e => .ok e
    | none =>
      if mode = Mode.dir1 then
        match group.find? (·.mode = Mode.labelled) with
        | some e => .ok e
        | none => .error .unsupportedMode
      else .error .unsupportedMode

end InstrSet

/-- The instruction of a kind with given operands, if their shapes fit. A jump takes its label from a
direct operand and is not resolved. -/
def Kind.instantiate? : Kind → Operands → Option Instr
  | .push, ⟨some src, none⟩ => some (.push src)
  | .pop, ⟨some dst, none⟩ => dst.place?.map .pop
  | .move, ⟨some dst, some src⟩ => dst.place?.map (.move · src)
  | .compare, ⟨some lhs, some rhs⟩ => some (.compare lhs rhs)
  | .adjust delta, ⟨some (.register name), none⟩ => some (.adjust delta name)
  | .jump condition, ⟨some (.direct label), none⟩ => some (.jump condition { label })
  | .arith op, ⟨none, none⟩ => some (.arith op)
  | .negate, ⟨none, none⟩ => some .negate
  | .logic op, ⟨none, none⟩ => some (.logic op)
  | .nop, ⟨none, none⟩ => some .nop
  | _, _ => none

/-! ### The standard set -/

/-- The entries of the standard instruction set. -/
def standardEntries : List Entry :=
  [ -- data
    ⟨"push", .imm1, .push⟩,
    ⟨"push", .reg1, .push⟩,
    ⟨"push", .dir1, .push⟩,
    ⟨"pop", .reg1, .pop⟩,
    ⟨"pop", .dir1, .pop⟩,
    ⟨"mov", .reg1 ∪ .imm2, .move⟩,
    ⟨"mov", .reg1 ∪ .reg2, .move⟩,
    ⟨"mov", .reg1 ∪ .dir2, .move⟩,
    ⟨"mov", .dir1 ∪ .imm2, .move⟩,
    ⟨"mov", .dir1 ∪ .reg2, .move⟩,
    ⟨"mov", .dir1 ∪ .dir2, .move⟩,
    -- comparison
    ⟨"cmp", .imm1 ∪ .reg2, .compare⟩,
    ⟨"cmp", .imm1 ∪ .dir2, .compare⟩,
    ⟨"cmp", .reg1 ∪ .imm2, .compare⟩,
    ⟨"cmp", .reg1 ∪ .reg2, .compare⟩,
    ⟨"cmp", .reg1 ∪ .dir2, .compare⟩,
    ⟨"cmp", .dir1 ∪ .imm2, .compare⟩,
    ⟨"cmp", .dir1 ∪ .reg2, .compare⟩,
    ⟨"cmp", .dir1 ∪ .dir2, .compare⟩,
    -- arithmetic
    ⟨"add", {}, .arith .add⟩,
    ⟨"sub", {}, .arith .sub⟩,
    ⟨"mul", {}, .arith .mul⟩,
    ⟨"div", {}, .arith .div⟩,
    ⟨"neg", {}, .negate⟩,
    ⟨"inc", .reg1, .adjust .inc⟩,
    ⟨"dec", .reg1, .adjust .dec⟩,
    -- logic
    ⟨"and", {}, .logic .and⟩,
    ⟨"or", {}, .logic .or⟩,
    -- control
    ⟨"jmp", .labelled, .jump .always⟩,
    ⟨"je", .labelled, .jump .falsy⟩,
    ⟨"jne", .labelled, .jump .truthy⟩,
    ⟨"nop", {}, .nop⟩ ]

/-- The instruction set of ordinary scripts. -/
def InstrSet.standard : InstrSet := .ofList standardEntries

end StackScript
