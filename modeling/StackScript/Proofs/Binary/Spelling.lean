import StackScript.Proofs.Binary.Truncation
import Mathlib.Logic.ExistsUnique

/-!
# The binary forms of a program

A program is stored as a row of *fields*: naturals, and bytes that stand for themselves. `Program.fields` lists
them without saying how a natural is laid out; the encoder gives each natural the fewest groups that it
needs (`encode_eq_fields`), and a reader also takes groups that add nothing. So two binary forms of one
program differ in the groups of their naturals and in nothing else.

Main statement (`canonical_of_isForm`): of the binary forms of a program that have nothing behind them, the
encoded program is the only shortest one, and each of the others spells the same fields.
-/

namespace StackScript
namespace Binary

variable {α : Type}

/-! ### Naturals in base 128 -/

/-- The bytes are the groups of a natural: all but the last have their high bit set. Groups of zeros at the
end are allowed. -/
inductive Groups : Bytes → Nat → Prop
  | last {b : UInt8} : b.toNat < 128 → Groups [b] b.toNat
  | more {b : UInt8} {bytes : Bytes} {n : Nat} : 128 ≤ b.toNat → Groups bytes n →
      Groups (b :: bytes) (b.toNat - 128 + 128 * n)

theorem Groups.length_pos {bytes : Bytes} {n : Nat} (h : Groups bytes n) : 0 < bytes.length := by
  cases h <;> simp

/-- Groups that are no more than needed are those that are written. -/
theorem Groups.eq_writeNat {bytes : Bytes} {n : Nat} (h : Groups bytes n)
    (hlength : bytes.length ≤ (writeNat n).length) : bytes = writeNat n := by
  induction h with
  | last hb => rw [writeNat_of_lt hb, UInt8.ofNat_toNat]
  | @more b bytes n hb hgroups ih =>
    have hlt : b.toNat < 256 := b.toNat_lt
    have hpos := hgroups.length_pos
    -- If the higher groups add nothing, one byte would have been enough.
    have hn : 0 < n := by
      apply Nat.pos_of_ne_zero
      rintro rfl
      rw [writeNat_of_lt (by omega), List.length_cons, List.length_singleton] at hlength
      omega
    have hlow : (b.toNat - 128 + 128 * n) % 128 + 128 = b.toNat := by omega
    have hhigh : (b.toNat - 128 + 128 * n) / 128 = n := by omega
    rw [writeNat_of_ge (by omega), hlow, hhigh, UInt8.ofNat_toNat] at hlength ⊢
    rw [ih (Nat.le_of_succ_le_succ hlength)]

/-- What is read as a natural are its groups, and it is below the bound of its width. -/
theorem yields_readGroups {last : Nat} (left : Nat) :
    Yields (readGroups last (left + 1)) fun used n =>
      Groups used n ∧ used.length ≤ left + 1 ∧ n < (last + 1) * 128 ^ left := by
  induction left with
  | zero =>
    refine yields_readByte.bind ?_
    rintro _ b rfl
    dsimp only
    split
    · next hb =>
      split
      · exact yields_throw _
      · next hfits => exact yields_pure ⟨.last hb, Nat.le_refl _, by omega⟩
    · exact (yields_throw (α := Nat) (P := fun _ _ => False) _).bind fun _ _ hfalse => hfalse.elim
  | succ left ih =>
    refine yields_readByte.bind ?_
    rintro _ b rfl
    have hpos : 0 < (last + 1) * 128 ^ left := Nat.mul_pos (Nat.succ_pos last) (Nat.pow_pos (by decide))
    have hbound : (last + 1) * 128 ^ (left + 1) = 128 * ((last + 1) * 128 ^ left) := by
      rw [Nat.pow_succ]; ac_rfl
    dsimp only
    split
    · next hb =>
      split
      · exact yields_throw _
      · refine yields_pure ⟨.last hb, by simp, ?_⟩
        rw [hbound]
        omega
    · next hb =>
      refine ih.bind_pure ?_
      rintro used n ⟨hgroups, hlength, hlt⟩
      have hbyte : b.toNat < 256 := b.toNat_lt
      refine ⟨.more (by omega) hgroups, by simpa using hlength, ?_⟩
      rw [hbound]
      omega

/-! ### Fields -/

/-- A part of the binary form of a program. -/
inductive Field where
  | natural (w : Width) (n : Nat)
  /-- Bytes that stand for themselves. -/
  | raw (bytes : Bytes)

/-- The shortest form of a field. -/
def Field.write : Field → Bytes
  | .natural _ n => writeNat n
  | .raw bytes => bytes

/-- The bytes are a form of the field: the groups of a natural, as many as its width allows, or the bytes
themselves. -/
inductive Field.SpelledBy : Field → Bytes → Prop
  | natural {w : Width} {n : Nat} {bytes : Bytes} : Groups bytes n → bytes.length ≤ w.bytes →
      SpelledBy (.natural w n) bytes
  | raw (bytes : Bytes) : SpelledBy (.raw bytes) bytes

/-- The bytes are forms of the fields, one after another. -/
inductive SpelledBy : List Field → Bytes → Prop
  | nil : SpelledBy [] []
  | cons {f : Field} {fs : List Field} {part bytes : Bytes} : f.SpelledBy part → SpelledBy fs bytes →
      SpelledBy (f :: fs) (part ++ bytes)

theorem SpelledBy.single {f : Field} {bytes : Bytes} (h : f.SpelledBy bytes) : SpelledBy [f] bytes := by
  have hcons := SpelledBy.cons h .nil
  rwa [List.append_nil] at hcons

theorem SpelledBy.append {fs fs' : List Field} {bytes bytes' : Bytes} (h : SpelledBy fs bytes)
    (h' : SpelledBy fs' bytes') : SpelledBy (fs ++ fs') (bytes ++ bytes') := by
  induction h with
  | nil => exact h'
  | cons hf _ ih =>
    rw [List.cons_append, List.append_assoc]
    exact .cons hf ih

theorem Field.SpelledBy.eq_write {f : Field} {bytes : Bytes} (h : f.SpelledBy bytes)
    (hlength : bytes.length ≤ f.write.length) : bytes = f.write := by
  cases h with
  | natural hgroups _ => exact hgroups.eq_writeNat hlength
  | raw => rfl

theorem Field.SpelledBy.length_le {f : Field} {bytes : Bytes} (h : f.SpelledBy bytes) :
    f.write.length ≤ bytes.length := by
  rcases Nat.le_total bytes.length f.write.length with hlength | hlength
  · exact Nat.le_of_eq (congrArg List.length (h.eq_write hlength).symm)
  · exact hlength

theorem SpelledBy.length_le {fs : List Field} {bytes : Bytes} (h : SpelledBy fs bytes) :
    (fs.flatMap Field.write).length ≤ bytes.length := by
  induction h with
  | nil => exact Nat.le_refl _
  | cons hf _ ih =>
    have hpart := hf.length_le
    rw [List.flatMap_cons, List.length_append, List.length_append]
    omega

/-- There is one shortest form of some fields: what one field has too much no other one makes up for. -/
theorem SpelledBy.eq_write {fs : List Field} {bytes : Bytes} (h : SpelledBy fs bytes)
    (hlength : bytes.length ≤ (fs.flatMap Field.write).length) : bytes = fs.flatMap Field.write := by
  induction h with
  | nil => rfl
  | cons hf hfs ih =>
    have hpart := hf.length_le
    have hrest := hfs.length_le
    rw [List.flatMap_cons, List.length_append, List.length_append] at hlength
    rw [List.flatMap_cons, hf.eq_write (by omega), ih (by omega)]

/-! ### The fields of a program -/

def stringFields (s : String) : List Field :=
  [.natural word s.utf8ByteSize, .raw s.toByteArray.data.toList]

def optionFields (fields : α → List Field) : Option α → List Field
  | none => [.raw [0]]
  | some a => .raw [1] :: fields a

def arrayFields (fields : α → List Field) (items : Array α) : List Field :=
  .natural word items.size :: items.toList.flatMap fields

def valueFields : Value → List Field
  | .undefined => [.natural tag 0]
  | .number x => [.natural tag 1, .raw (writeWord x.bits)]
  | .boolean b => [.natural tag 2, .raw (writeBool b)]
  | .string s => .natural tag 3 :: stringFields s

def operandFields : Operand → List Field
  | .immediate value => .natural tag 0 :: valueFields value
  | .register name => .natural tag 1 :: stringFields name
  | .direct name => .natural tag 2 :: stringFields name

def placeFields : Place → List Field
  | .register name => .natural tag 0 :: stringFields name
  | .direct name => .natural tag 1 :: stringFields name

def targetFields (t : Target) : List Field :=
  stringFields t.label ++ optionFields (fun n => [.natural word n]) t.position

/-- The fields of the parts of an instruction, without its tag. -/
def partsFields : Instr → List Field
  | .push src => operandFields src
  | .pop dst => placeFields dst
  | .move dst src => placeFields dst ++ operandFields src
  | .compare lhs rhs => operandFields lhs ++ operandFields rhs
  | .adjust _ register => stringFields register
  | .jump _ target => targetFields target
  | .arith _ | .negate | .logic _ | .nop => []

def instrFields (i : Instr) : List Field := .natural tag (kindTag i.kind) :: partsFields i

/-! ### What is written -/

theorem write_string (s : String) : (stringFields s).flatMap Field.write = writeString s := by
  simp [stringFields, Field.write, writeString]

theorem write_option {fields : α → List Field} {write : α → Bytes}
    (h : ∀ a, (fields a).flatMap Field.write = write a) (a? : Option α) :
    (optionFields fields a?).flatMap Field.write = writeOption write a? := by
  cases a? with
  | none => rfl
  | some a => simp [optionFields, Field.write, writeOption, h]

theorem write_array {fields : α → List Field} {write : α → Bytes}
    (h : ∀ a, (fields a).flatMap Field.write = write a) (items : Array α) :
    (arrayFields fields items).flatMap Field.write = writeArray write items := by
  simp only [arrayFields, List.flatMap_cons, Field.write, writeArray, List.flatMap_assoc, h]

theorem write_natural (w : Width) (n : Nat) : [Field.natural w n].flatMap Field.write = writeNat n := by
  simp [Field.write]

theorem write_value (v : Value) : (valueFields v).flatMap Field.write = writeValue v := by
  cases v <;> simp [valueFields, Field.write, writeValue, write_string]

theorem write_operand (a : Operand) : (operandFields a).flatMap Field.write = writeOperand a := by
  cases a <;> simp [operandFields, Field.write, writeOperand, write_value, write_string]

theorem write_place (a : Place) : (placeFields a).flatMap Field.write = writePlace a := by
  cases a <;> simp [placeFields, Field.write, writePlace, write_string]

theorem write_target (t : Target) : (targetFields t).flatMap Field.write = writeTarget t := by
  rw [targetFields, List.flatMap_append, write_string, write_option (write_natural word), writeTarget]

theorem write_instr (i : Instr) : (instrFields i).flatMap Field.write = writeInstr i := by
  have hparts : (partsFields i).flatMap Field.write = writeParts i := by
    cases i <;> simp [partsFields, writeParts, write_operand, write_place, write_string, write_target]
  rw [instrFields, List.flatMap_cons, hparts]
  rfl

end Binary

/-- What the binary form of a program consists of. -/
def Program.fields (p : Program) : List Binary.Field :=
  Binary.arrayFields Binary.instrFields p.code ++ Binary.arrayFields (fun n => [.natural Binary.word n]) p.lines

/-- The encoder writes each field in its shortest form. -/
theorem Program.encode_eq_fields (p : Program) : p.encode = p.fields.flatMap Binary.Field.write := by
  rw [fields, List.flatMap_append, Binary.write_array Binary.write_instr,
    Binary.write_array (Binary.write_natural Binary.word), encode, Binary.writeProgram]

namespace Binary

/-! ### What is read -/

/-- The reader takes the fields of what it returns, which has the property `P`. -/
def TakesFields (r : Reader α) (fields : α → List Field) (P : α → Prop) : Prop :=
  Yields r fun used a => P a ∧ SpelledBy (fields a) used

theorem takes_word : TakesFields (readNat word) (fun n => [.natural word n]) (· < 2 ^ 64) := by
  refine (yields_readGroups 9).mono ?_
  rintro used n ⟨hgroups, hlength, hlt⟩
  exact ⟨hlt, .single (.natural hgroups hlength)⟩

theorem takes_tag : TakesFields (readNat tag) (fun n => [.natural tag n]) fun _ => True := by
  refine (yields_readGroups 4).mono ?_
  rintro used n ⟨hgroups, hlength, -⟩
  exact ⟨trivial, .single (.natural hgroups hlength)⟩

theorem takes_readWord : Yields readWord fun used w => used = writeWord w := by
  refine (yields_readBytes 8).bind_pure ?_
  rintro bytes _ ⟨rfl, hlength⟩
  have hlt : ofBytes bytes < UInt64.size := by
    have h := ofBytes_lt bytes
    rwa [hlength] at h
  rw [writeWord, UInt64.toNat_ofNat_of_lt' hlt, ← hlength, writeFixed_ofBytes]

theorem takes_readFlag (e : DecodeError) : Yields (readFlag e) fun used b => used = writeBool b := by
  refine yields_readByte.bind ?_
  rintro _ b rfl
  split
  · next hb => exact yields_pure (by rw [UInt8.toNat_inj.mp (show b.toNat = (0 : UInt8).toNat from hb)]; rfl)
  · next hb => exact yields_pure (by rw [UInt8.toNat_inj.mp (show b.toNat = (1 : UInt8).toNat from hb)]; rfl)
  · exact yields_throw _

theorem takes_option {read : Reader α} {fields : α → List Field} {P : α → Prop} (h : TakesFields read fields P) :
    TakesFields (readOption read) (optionFields fields) fun a? => ∀ a ∈ a?, P a := by
  refine (takes_readFlag _).bind ?_
  rintro _ b rfl
  cases b with
  | false => exact yields_pure ⟨by simp, .single (.raw [0])⟩
  | true =>
    refine Yields.bind_pure h ?_
    rintro used a ⟨hP, hspelled⟩
    refine ⟨fun a' ha' => ?_, .cons (.raw [1]) hspelled⟩
    cases ha'
    exact hP

theorem takes_string : TakesFields readString stringFields (·.utf8ByteSize < 2 ^ 64) := by
  refine Yields.bind takes_word ?_
  rintro used n ⟨hlt, hspelled⟩
  refine (yields_readBytes n).bind ?_
  rintro bytes _ ⟨rfl, hlength⟩
  split
  · next s hs =>
    have hbytes : s.toByteArray.data.toList = bytes := by rw [toByteArray_of_fromUTF8? hs]
    have hsize : s.utf8ByteSize = n := by
      rw [← hlength, ← hbytes]
      rfl
    have hfits : s.utf8ByteSize < 2 ^ 64 := by rwa [hsize]
    refine yields_pure ⟨hfits, ?_⟩
    rw [List.append_nil, stringFields, hsize, hbytes]
    exact hspelled.append (.single (.raw bytes))
  · exact yields_throw _

theorem takes_items {read : Reader α} {fields : α → List Field} {P : α → Prop} (h : TakesFields read fields P)
    (n : Nat) (items : Array α) :
    Yields (readItems read n items) fun used all =>
      ∃ xs : List α, xs.length = n ∧ all = items ++ xs.toArray ∧ (∀ a ∈ xs, P a) ∧ SpelledBy (xs.flatMap fields) used := by
  induction n generalizing items with
  | zero => exact yields_pure ⟨[], rfl, by simp, List.forall_mem_nil _, .nil⟩
  | succ n ih =>
    refine Yields.bind h ?_
    rintro used a ⟨hP, hspelled⟩
    refine (ih (items.push a)).mono ?_
    rintro used' _ ⟨xs, rfl, rfl, hall, hrest⟩
    refine ⟨a :: xs, rfl, by simp, List.forall_mem_cons.mpr ⟨hP, hall⟩, ?_⟩
    rw [List.flatMap_cons]
    exact hspelled.append hrest

theorem takes_array {read : Reader α} {fields : α → List Field} {P : α → Prop} (h : TakesFields read fields P) :
    TakesFields (readArray read) (arrayFields fields) fun items => items.size < 2 ^ 64 ∧ ∀ a ∈ items, P a := by
  refine Yields.bind takes_word ?_
  rintro used n ⟨hlt, hspelled⟩
  refine (takes_items h n #[]).mono ?_
  rintro used' _ ⟨xs, rfl, rfl, hall, hrest⟩
  rw [Array.empty_append]
  exact ⟨⟨hlt, by simpa using hall⟩, hspelled.append hrest⟩

/-- What follows a tag. -/
theorem takes_tagged {f : Nat → Reader α} {fields : α → List Field} {P : α → Prop}
    (h : ∀ n, Yields (f n) fun used a => P a ∧ ∃ fs, fields a = .natural tag n :: fs ∧ SpelledBy fs used) :
    TakesFields (readNat tag >>= f) fields P := by
  refine Yields.bind takes_tag ?_
  rintro used n ⟨-, hspelled⟩
  refine (h n).mono ?_
  rintro used' a ⟨hP, fs, hfields, hrest⟩
  rw [hfields]
  exact ⟨hP, hspelled.append hrest⟩

theorem takes_value : TakesFields readValue valueFields Value.Storable := by
  refine takes_tagged fun n => ?_
  split
  · exact yields_pure ⟨trivial, _, rfl, .nil⟩
  · refine takes_readWord.bind_pure ?_
    rintro _ w rfl
    exact ⟨trivial, _, rfl, .single (.raw _)⟩
  · refine (takes_readFlag _).bind_pure ?_
    rintro _ b rfl
    exact ⟨trivial, _, rfl, .single (.raw _)⟩
  · exact takes_string.bind_pure fun used s hs => ⟨hs.1, _, rfl, hs.2⟩
  · exact yields_throw _

theorem takes_operand : TakesFields readOperand operandFields Operand.Storable := by
  refine takes_tagged fun n => ?_
  split
  · exact takes_value.bind_pure fun used v hv => ⟨hv.1, _, rfl, hv.2⟩
  · exact takes_string.bind_pure fun used s hs => ⟨hs.1, _, rfl, hs.2⟩
  · exact takes_string.bind_pure fun used s hs => ⟨hs.1, _, rfl, hs.2⟩
  · exact yields_throw _

theorem takes_place : TakesFields readPlace placeFields Place.Storable := by
  refine takes_tagged fun n => ?_
  split
  · exact takes_string.bind_pure fun used s hs => ⟨hs.1, _, rfl, hs.2⟩
  · exact takes_string.bind_pure fun used s hs => ⟨hs.1, _, rfl, hs.2⟩
  · exact yields_throw _

theorem takes_target : TakesFields readTarget targetFields Target.Storable := by
  refine Yields.bind takes_string ?_
  rintro used label ⟨hlabel, hspelled⟩
  refine (takes_option takes_word).bind_pure ?_
  rintro used' position ⟨hposition, hrest⟩
  exact ⟨⟨hlabel, hposition⟩, hspelled.append hrest⟩

theorem takes_parts (k : Kind) :
    Yields (readParts k) fun used i => i.kind = k ∧ i.Storable ∧ SpelledBy (partsFields i) used := by
  cases k with
  | push => exact takes_operand.bind_pure fun used a ha => ⟨rfl, ha⟩
  | pop => exact takes_place.bind_pure fun used a ha => ⟨rfl, ha⟩
  | move =>
    refine Yields.bind takes_place ?_
    rintro used dst ⟨hdst, hspelled⟩
    refine takes_operand.bind_pure ?_
    rintro used' src ⟨hsrc, hrest⟩
    exact ⟨rfl, ⟨hdst, hsrc⟩, hspelled.append hrest⟩
  | compare =>
    refine Yields.bind takes_operand ?_
    rintro used lhs ⟨hlhs, hspelled⟩
    refine takes_operand.bind_pure ?_
    rintro used' rhs ⟨hrhs, hrest⟩
    exact ⟨rfl, ⟨hlhs, hrhs⟩, hspelled.append hrest⟩
  | adjust delta => exact takes_string.bind_pure fun used s hs => ⟨rfl, hs⟩
  | jump condition => exact takes_target.bind_pure fun used t ht => ⟨rfl, ht⟩
  | _ => exact yields_pure ⟨rfl, trivial, .nil⟩

/-- A tag names the kind that has it. -/
theorem kindTag_of_kinds {n : Nat} {k : Kind} (h : kinds[n]? = some k) : kindTag k = n := by
  have hn : n < 17 := (Array.getElem?_eq_some_iff.mp h).1
  have hall : ∀ m, m < 17 → (kinds[m]?.map kindTag) = some m := by decide
  have hm := hall n hn
  rw [h] at hm
  exact Option.some.inj hm

theorem takes_instr : TakesFields readInstr instrFields Instr.Storable := by
  refine takes_tagged fun n => ?_
  split
  · next k hk =>
    refine (takes_parts k).mono ?_
    rintro used i ⟨rfl, hstorable, hspelled⟩
    exact ⟨hstorable, partsFields i, by rw [instrFields, kindTag_of_kinds hk], hspelled⟩
  · exact yields_throw _

theorem takes_program : TakesFields readProgram Program.fields Program.Storable := by
  refine Yields.bind (takes_array takes_instr) ?_
  rintro used code ⟨⟨hcodeSize, hcode⟩, hspelled⟩
  refine (takes_array takes_word).bind_pure ?_
  rintro used' lines ⟨⟨hlinesSize, hlines⟩, hrest⟩
  exact ⟨⟨hcodeSize, hlinesSize, hcode, hlines⟩, hspelled.append hrest⟩

end Binary

/-! ### Forms of a program -/

namespace Program

/-- The bytes decode to the program, and none of them can be left out at the end. -/
structure IsForm (bytes : Bytes) (p : Program) : Prop where
  decode : Program.decode bytes = .ok p
  least : ∀ part, part <+: bytes → part ≠ bytes → ∀ q, Program.decode part ≠ .ok q

theorem run_of_decode {bytes : Bytes} {p : Program} (h : Program.decode bytes = .ok p) :
    ∃ rest, Binary.readProgram.run bytes = .ok (p, rest) := by
  unfold Program.decode at h
  cases hrun : Binary.readProgram.run bytes with
  | error e =>
    rw [hrun] at h
    cases h
  | ok x =>
    rw [hrun] at h
    cases h
    exact ⟨x.2, rfl⟩

/-- The forms of a program are what is read as the program to the last byte. -/
theorem isForm_iff {bytes : Bytes} {p : Program} :
    IsForm bytes p ↔ Binary.readProgram.run bytes = .ok (p, []) := by
  constructor
  · intro h
    obtain ⟨rest, hrun⟩ := run_of_decode h.decode
    obtain ⟨used, hsplit, hreads⟩ := Binary.steady_readProgram.takes bytes p rest hrun
    have hused : Program.decode used = .ok p := by
      have hall := hreads []
      rw [List.append_nil] at hall
      rw [Program.decode, hall]
      rfl
    -- What was taken decodes by itself, so it is all there is.
    have hrest : rest = [] := by
      by_cases hall : used = bytes
      · rw [hall] at hsplit
        exact List.append_right_eq_self.mp hsplit.symm
      · exact absurd hused (h.least used ⟨rest, hsplit.symm⟩ hall p)
    rw [hrun, hrest]
  · intro hrun
    refine ⟨by rw [Program.decode, hrun]; rfl, ?_⟩
    rintro part ⟨more, rfl⟩ hne q hq
    obtain ⟨used, hsplit, hreads⟩ := Binary.steady_readProgram.takes _ p [] hrun
    rw [List.append_nil] at hsplit
    have hmore : more ≠ [] := by
      rintro rfl
      exact hne (List.append_nil part).symm
    rw [Program.decode, Binary.steady_readProgram.truncated (hsplit ▸ hreads) hmore] at hq
    cases hq

theorem IsForm.spelled {bytes : Bytes} {p : Program} (h : IsForm bytes p) :
    p.Storable ∧ Binary.SpelledBy p.fields bytes := by
  obtain ⟨used, hsplit, hspelled⟩ := Binary.takes_program bytes p [] (isForm_iff.mp h)
  rw [List.append_nil] at hsplit
  rwa [← hsplit] at hspelled

/-- The encoded program is a form of the program. -/
theorem isForm_encode {p : Program} (h : p.Storable) : IsForm p.encode p := by
  have hrun := Binary.reads_program h []
  rw [List.append_nil] at hrun
  exact isForm_iff.mpr hrun

/-- A form of a program is no shorter than the encoded program, and it is the encoded program if it is no
longer; this decodes to the program again. So the encoded program is the only shortest form, and all that
the others have more are groups of naturals that add nothing. -/
theorem canonical_of_isForm {bytes : Bytes} {p : Program} (h : IsForm bytes p) :
    p.encode.length ≤ bytes.length ∧
      (p.encode.length = bytes.length ↔ p.encode = bytes) ∧
      Program.decode p.encode = .ok p ∧
      (∃! short, IsForm short p ∧ ∀ other, IsForm other p → short.length ≤ other.length) ∧
      p.encode = p.fields.flatMap Binary.Field.write ∧ Binary.SpelledBy p.fields bytes := by
  have hlength : ∀ other, IsForm other p → p.encode.length ≤ other.length := by
    intro other hother
    rw [encode_eq_fields]
    exact hother.spelled.2.length_le
  have heq : ∀ other, IsForm other p → other.length ≤ p.encode.length → other = p.encode := by
    intro other hother hle
    rw [encode_eq_fields] at hle ⊢
    exact hother.spelled.2.eq_write hle
  obtain ⟨hstorable, hspelled⟩ := h.spelled
  refine ⟨hlength bytes h, ⟨?_, congrArg List.length⟩, decode_encode hstorable, ?_, p.encode_eq_fields, hspelled⟩
  · intro hsame
    exact (heq bytes h (Nat.le_of_eq hsame.symm)).symm
  · refine ⟨p.encode, ⟨isForm_encode hstorable, hlength⟩, ?_⟩
    rintro short ⟨hshort, hleast⟩
    exact heq short hshort (hleast p.encode (isForm_encode hstorable))

/-- A form in which the length of the code, a tag, the length of a label, a position and a line have groups
that add nothing. -/
theorem canonical_of_isForm_padded :
    ∃ p : Program, p = ⟨#[.jump .always ⟨"a", some 0⟩], #[5]⟩ ∧
      IsForm [0x81, 0, 0x8d, 0x80, 0, 0x81, 0, 97, 1, 0x80, 0, 1, 0x85, 0] p ∧
      p.encode = [1, 13, 1, 97, 1, 0, 1, 5] ∧
      Binary.SpelledBy p.fields [0x81, 0, 0x8d, 0x80, 0, 0x81, 0, 97, 1, 0x80, 0, 1, 0x85, 0] := by
  have hform : IsForm [0x81, 0, 0x8d, 0x80, 0, 0x81, 0, 97, 1, 0x80, 0, 1, 0x85, 0]
      ⟨#[.jump .always ⟨"a", some 0⟩], #[5]⟩ :=
    isForm_iff.mpr (Fallible.toOption_eq_some_iff.mp (by decide +kernel))
  obtain ⟨-, -, -, -, -, hspelled⟩ := canonical_of_isForm hform
  exact ⟨_, rfl, hform, by decide +kernel, hspelled⟩

end Program
end StackScript
