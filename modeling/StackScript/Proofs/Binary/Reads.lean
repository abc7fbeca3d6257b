import StackScript.Binary.Codec
import StackScript.Proofs.Fallible
import Mathlib.Algebra.Group.Nat.Defs

/-!
# Readers and what they read

A reader reads some bytes as a value if it takes exactly these bytes off the front of any input and
returns the value (`Reads`). Readers put together in sequence read what their parts read, one after
another. Each building block of the binary format is read back from what its writer puts out.
-/

namespace StackScript
namespace Binary

variable {α β : Type}

/-- In front of anything, the bytes are read as the value, and nothing else is taken. -/
def Reads (r : Reader α) (bytes : Bytes) (a : α) : Prop := ∀ rest, r.run (bytes ++ rest) = .ok (a, rest)

theorem Reads.pure (a : α) : Reads (Pure.pure a) [] a := fun _ => rfl

theorem Reads.bind {r : Reader α} {f : α → Reader β} {bytes bytes' : Bytes} {a : α} {b : β}
    (hr : Reads r bytes a) (hf : Reads (f a) bytes' b) : Reads (r >>= f) (bytes ++ bytes') b := by
  intro rest
  rw [StateT.run_bind, List.append_assoc, hr, Fallible.ok_bind]
  exact hf rest

/-- A reader that needs no further bytes after another one. -/
theorem Reads.bind_pure {r : Reader α} {f : α → β} {bytes : Bytes} {a : α} (hr : Reads r bytes a) :
    Reads (r >>= fun a => Pure.pure (f a)) bytes (f a) := by
  have h : Reads (r >>= fun a => Pure.pure (f a)) (bytes ++ []) (f a) := hr.bind (Reads.pure (f a))
  rwa [List.append_nil] at h

/-! ### Bytes -/

theorem reads_byte (b : UInt8) : Reads readByte [b] b := fun _ => rfl

theorem reads_bytes (bytes : Bytes) : Reads (readBytes bytes.length) bytes bytes := by
  intro rest
  show readBytes bytes.length (bytes ++ rest) = _
  simp [readBytes]

/-! ### Naturals -/

theorem writeNat_of_lt {n : Nat} (h : n < 128) : writeNat n = [UInt8.ofNat n] := by
  rw [writeNat, if_pos h]

theorem writeNat_of_ge {n : Nat} (h : 128 ≤ n) :
    writeNat n = UInt8.ofNat (n % 128 + 128) :: writeNat (n / 128) := by
  rw [writeNat, if_neg (by omega)]

theorem reads_last_group {last left n : Nat} (hn : n < 128) (hlast : left = 0 → n ≤ last) :
    Reads (readGroups last (left + 1)) [UInt8.ofNat n] n := by
  have hbyte : (UInt8.ofNat n).toNat = n := by simp; omega
  have hfits : ¬(left = 0 ∧ last < n) := by omega
  refine Reads.bind (reads_byte _) ?_
  simp only [hbyte, if_pos hn, if_neg hfits]
  exact Reads.pure n

theorem reads_more_groups {last left n : Nat} (hn : 128 ≤ n)
    (h : Reads (readGroups last left) (writeNat (n / 128)) (n / 128)) :
    Reads (readGroups last (left + 1)) (writeNat n) n := by
  have hbyte : (UInt8.ofNat (n % 128 + 128)).toNat = n % 128 + 128 := by simp; omega
  have hvalue : n % 128 + 128 - 128 + 128 * (n / 128) = n := by omega
  rw [writeNat_of_ge hn]
  refine Reads.bind (reads_byte _) ?_
  simp only [hbyte, if_neg (show ¬n % 128 + 128 < 128 by omega)]
  have hread := h.bind_pure (f := fun high => n % 128 + 128 - 128 + 128 * high)
  rwa [hvalue] at hread

/-- With `left + 1` groups to go, every natural is read whose topmost group is small enough. -/
theorem reads_groups {last left n : Nat} (hlast : last < 128) (h : n < (last + 1) * 128 ^ left) :
    Reads (readGroups last (left + 1)) (writeNat n) n := by
  induction left generalizing n with
  | zero =>
    rw [writeNat_of_lt (by omega)]
    exact reads_last_group (by omega) (by omega)
  | succ left ih =>
    by_cases hn : n < 128
    · rw [writeNat_of_lt hn]
      exact reads_last_group hn (by omega)
    · -- Taking off the lowest group leaves the topmost one, which the bound is about, as it is.
      refine reads_more_groups (by omega) (ih (Nat.div_lt_of_lt_mul ?_))
      calc
        n < (last + 1) * 128 ^ (left + 1) := h
        _ = 128 * ((last + 1) * 128 ^ left) := by rw [Nat.pow_succ]; ac_rfl

theorem reads_nat_word {n : Nat} (h : n < 2 ^ 64) : Reads (readNat word) (writeNat n) n :=
  reads_groups (by decide) (show n < (1 + 1) * 128 ^ 9 by omega)

theorem reads_nat_tag {n : Nat} (h : n < 2 ^ 32) : Reads (readNat tag) (writeNat n) n :=
  reads_groups (by decide) (show n < (15 + 1) * 128 ^ 4 by omega)

/-! ### Words -/

theorem length_writeFixed (count n : Nat) : (writeFixed count n).length = count := by
  induction count generalizing n with
  | zero => rfl
  | succ count ih => simp [writeFixed, ih]

theorem ofBytes_writeFixed (count n : Nat) : ofBytes (writeFixed count n) = n % 256 ^ count := by
  induction count generalizing n with
  | zero => simp [writeFixed, ofBytes, Nat.mod_one]
  | succ count ih =>
    have hbyte : (UInt8.ofNat (n % 256)).toNat = n % 256 := by simp
    have htail :
        ofBytes (writeFixed (count + 1) n) = n % 256 + 256 * ofBytes (writeFixed count (n / 256)) := by
      rw [← hbyte]; rfl
    rw [htail, ih, Nat.pow_succ, Nat.mul_comm _ 256, Nat.mod_mul]

theorem ofBytes_lt (bytes : Bytes) : ofBytes bytes < 256 ^ bytes.length := by
  induction bytes with
  | nil => decide
  | cons b bytes ih =>
    have hbyte : b.toNat < 256 := b.toNat_lt
    show b.toNat + 256 * ofBytes bytes < _
    rw [List.length_cons, Nat.pow_succ]
    omega

theorem writeFixed_ofBytes (bytes : Bytes) : writeFixed bytes.length (ofBytes bytes) = bytes := by
  induction bytes with
  | nil => rfl
  | cons b bytes ih =>
    have hbyte : b.toNat < 256 := b.toNat_lt
    have hlow : (b.toNat + 256 * ofBytes bytes) % 256 = b.toNat := by omega
    have hhigh : (b.toNat + 256 * ofBytes bytes) / 256 = ofBytes bytes := by omega
    show UInt8.ofNat ((b.toNat + 256 * ofBytes bytes) % 256) ::
      writeFixed bytes.length ((b.toNat + 256 * ofBytes bytes) / 256) = _
    rw [hlow, hhigh, ih, UInt8.ofNat_toNat]

theorem reads_word (w : UInt64) : Reads readWord (writeWord w) w := by
  have hbytes : Reads (readBytes 8) (writeWord w) (writeWord w) := by
    have h := reads_bytes (writeWord w)
    rwa [writeWord, length_writeFixed] at h
  have hlt : w.toNat < 256 ^ 8 := w.toNat_lt
  have hvalue : UInt64.ofNat (ofBytes (writeWord w)) = w := by
    rw [writeWord, ofBytes_writeFixed, Nat.mod_eq_of_lt hlt, UInt64.ofNat_toNat]
  have hread := hbytes.bind_pure (f := fun bytes => UInt64.ofNat (ofBytes bytes))
  rwa [hvalue] at hread

/-! ### Booleans and options -/

theorem reads_flag (e : DecodeError) (b : Bool) : Reads (readFlag e) (writeBool b) b := by
  cases b <;> exact fun _ => rfl

theorem reads_option {write : α → Bytes} {read : Reader α} {a? : Option α}
    (h : ∀ a ∈ a?, Reads read (write a) a) : Reads (readOption read) (writeOption write a?) a? := by
  cases a? with
  | none => exact (reads_flag .badOption false).bind (Reads.pure none)
  | some a => exact (reads_flag .badOption true).bind (h a rfl).bind_pure

/-! ### Strings and sequences -/

theorem fromUTF8?_toByteArray (s : String) :
    String.fromUTF8? ⟨s.toByteArray.data.toList.toArray⟩ = some s := by
  rw [String.fromUTF8?, dif_pos s.isValidUTF8]
  rfl

theorem toByteArray_of_fromUTF8? {bytes : ByteArray} {s : String} (h : String.fromUTF8? bytes = some s) :
    s.toByteArray = bytes := by
  unfold String.fromUTF8? at h
  split at h
  · cases h
    rfl
  · cases h

theorem reads_string {s : String} (h : s.utf8ByteSize < 2 ^ 64) :
    Reads readString (writeString s) s := by
  have hbytes : Reads (readBytes s.utf8ByteSize) s.toByteArray.data.toList s.toByteArray.data.toList :=
    reads_bytes s.toByteArray.data.toList
  have hread : Reads readString (writeNat s.utf8ByteSize ++ (s.toByteArray.data.toList ++ [])) s := by
    refine (reads_nat_word h).bind (hbytes.bind ?_)
    rw [fromUTF8?_toByteArray]
    exact Reads.pure s
  rwa [List.append_nil] at hread

theorem reads_items {write : α → Bytes} {read : Reader α} {xs : List α} (h : ∀ a ∈ xs, Reads read (write a) a)
    (items : Array α) : Reads (readItems read xs.length items) (xs.flatMap write) (items ++ xs.toArray) := by
  induction xs generalizing items with
  | nil => simpa [readItems] using Reads.pure items
  | cons a xs ih =>
    have hitems : items ++ (a :: xs).toArray = items.push a ++ xs.toArray := by simp
    rw [hitems]
    exact (h a (by simp)).bind (ih (fun b hb => h b (by simp [hb])) (items.push a))

theorem reads_array {write : α → Bytes} {read : Reader α} {items : Array α} (hsize : items.size < 2 ^ 64)
    (h : ∀ a ∈ items, Reads read (write a) a) : Reads (readArray read) (writeArray write items) items := by
  have hitems := reads_items (fun a ha => h a (Array.mem_toList_iff.mp ha)) #[]
  refine (reads_nat_word hsize).bind ?_
  simpa using hitems

end Binary
end StackScript
