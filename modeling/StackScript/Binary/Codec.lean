/-!
# The binary format

The building blocks of stored programs: how naturals, booleans, options, strings, 64-bit words and
sequences are laid out in bytes, with a writer and a reader for each.

* A natural is written in base 128, least significant group first; the high bit of a byte says that
  another one follows. A reader of naturals takes a bounded number of bytes and bounds the last of them,
  so that the value fits its width; within that it accepts groups that add nothing.
* A boolean is a byte, an option a byte that says whether a value follows.
* A string is its length in bytes and its UTF-8 form; a sequence is its length and its items.

Readers go from left to right and stop at the first error.
-/

namespace StackScript

abbrev Bytes := List UInt8

/-- Why bytes cannot be decoded. -/
inductive DecodeError where
  | unexpectedEnd
  | badNatural
  | badBoolean
  | badOption
  | badText
  | unknownTag
deriving DecidableEq, Repr

def DecodeError.message : DecodeError → String
  | .unexpectedEnd => "Hit the end of buffer, expected more data"
  | .badNatural => "Found a varint that didn't terminate. Is the usize too big for this platform?"
  | .badBoolean => "Found a bool that wasn't 0 or 1"
  | .badOption => "Found an Option discriminant that wasn't 0 or 1"
  | .badText => "Tried to parse invalid utf-8"
  | .unknownTag => "Serde Deserialization Error"

/-- A reader takes some bytes off the front of its input. -/
abbrev Reader (α : Type) := StateT Bytes (Except DecodeError) α

namespace Binary

/-! ### Bytes -/

def readByte : Reader UInt8 := fun
  | [] => .error .unexpectedEnd
  | b :: rest => .ok (b, rest)

/-- Takes exactly `n` bytes. -/
def readBytes (n : Nat) : Reader Bytes := fun bytes =>
  let taken := bytes.take n
  if taken.length = n then .ok (taken, bytes.drop n) else .error .unexpectedEnd

/-! ### Naturals -/

/-- The groups of a natural in base 128. -/
def writeNat (n : Nat) : Bytes :=
  if n < 128 then [UInt8.ofNat n] else UInt8.ofNat (n % 128 + 128) :: writeNat (n / 128)
termination_by n

/-- How many bytes a natural may take, and the largest value of the last of them. -/
structure Width where
  bytes : Nat
  last : Nat

/-- Naturals below `2 ^ 64`: lengths, positions and lines. -/
def word : Width := ⟨10, 1⟩

/-- Naturals below `2 ^ 32`: tags. -/
def tag : Width := ⟨5, 15⟩

/-- Reads at most `left` groups. -/
def readGroups (last : Nat) : (left : Nat) → Reader Nat
  | 0 => throw .badNatural
  | left + 1 => do
    let b := (← readByte).toNat
    if b < 128 then
      if left = 0 ∧ last < b then throw .badNatural else return b
    else
      let high ← readGroups last left
      return b - 128 + 128 * high

def readNat (w : Width) : Reader Nat := readGroups w.last w.bytes

/-! ### Words -/

/-- The lowest `count` bytes of a natural, least significant first. -/
def writeFixed : (count : Nat) → Nat → Bytes
  | 0, _ => []
  | count + 1, n => UInt8.ofNat (n % 256) :: writeFixed count (n / 256)

/-- The natural whose bytes are given, least significant first. -/
def ofBytes (bytes : Bytes) : Nat := bytes.foldr (fun b n => b.toNat + 256 * n) 0

def writeWord (w : UInt64) : Bytes := writeFixed 8 w.toNat

def readWord : Reader UInt64 := do
  return UInt64.ofNat (ofBytes (← readBytes 8))

/-! ### Booleans and options -/

def writeBool (b : Bool) : Bytes := [if b then 1 else 0]

/-- One of two bytes, or an error. -/
def readFlag (e : DecodeError) : Reader Bool := do
  match (← readByte).toNat with
  | 0 => return false
  | 1 => return true
  | _ => throw e

def readBool : Reader Bool := readFlag .badBoolean

def writeOption {α : Type} (write : α → Bytes) : Option α → Bytes
  | none => [0]
  | some a => 1 :: write a

def readOption {α : Type} (read : Reader α) : Reader (Option α) := do
  if ← readFlag .badOption then return some (← read) else return none

/-! ### Strings and sequences -/

def writeString (s : String) : Bytes :=
  let bytes := s.toByteArray.data.toList
  writeNat bytes.length ++ bytes

def readString : Reader String := do
  let bytes ← readBytes (← readNat word)
  match String.fromUTF8? ⟨bytes.toArray⟩ with
  | some s => return s
  | none => throw .badText

def writeArray {α : Type} (write : α → Bytes) (items : Array α) : Bytes :=
  writeNat items.size ++ items.toList.flatMap write

/-- Reads `n` further items. -/
def readItems {α : Type} (read : Reader α) : (n : Nat) → Array α → Reader (Array α)
  | 0, items => return items
  | n + 1, items => do readItems read n (items.push (← read))

def readArray {α : Type} (read : Reader α) : Reader (Array α) := do
  readItems read (← readNat word) #[]

end Binary
end StackScript
