import StackScript.Machine.Fault
import StackScript.Table

/-!
# Hosts

A running program reads and writes variables that belong to its host. A host is a deterministic state
machine: each request takes its state to an answer and a next state. The plain host is a *store*, a table
of values in which every name can be written and only bound names can be read.
-/

namespace StackScript

/-- A request to the host. -/
inductive Call where
  | get (name : String)
  | set (name : String) (value : Value)
deriving DecidableEq, Repr

/-- The answers of a host with states `σ`. -/
structure Host (σ : Type) where
  get : String → σ → Except HostFault Value × σ
  set : String → Value → σ → Except HostFault Unit × σ

/-- Variables with their values. -/
abbrev Store := Table Value

namespace Host

/-- The host whose state is a store. -/
def store : Host Store where
  get name s :=
    match s.get? name with
    | some v => (.ok v, s)
    | none => (.error (.unknownVariable name), s)
  set name v s := (.ok (), s.insert name v)

/-- A host that refuses to write some names and otherwise answers as `h`. -/
def protect {σ : Type} (h : Host σ) (names : List String) : Host σ where
  get := h.get
  set name v s := if name ∈ names then (.error (.readOnly name), s) else h.set name v s

end Host
end StackScript
