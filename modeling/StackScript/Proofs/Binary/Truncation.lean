import StackScript.Proofs.Binary.RoundTrip

/-!
# Truncated programs

Readers go from left to right and never look back, so bytes that are missing at the end of an input can
change only one thing: a reader that comes to the end asks for more. `Steady` says this of a reader, in
two parts, and both pass from the parts of a sequence to the sequence:

* it asks for more bytes, or its answer does not depend on the bytes that follow (`waits`);
* what it answers is read from the bytes that it takes and from nothing else (`takes`).

Main statement (`decode_of_truncated`): every encoded program that is cut short, at whatever place,
is refused because its end is missing.
-/

namespace StackScript
namespace Binary

variable {α β : Type}

/-! ### What a reader takes -/

/-- Whenever the reader returns a value, `P` holds of the bytes that it took and the value. -/
def Yields (r : Reader α) (P : Bytes → α → Prop) : Prop :=
  ∀ bytes a rest, r.run bytes = .ok (a, rest) → ∃ used, bytes = used ++ rest ∧ P used a

theorem Yields.mono {r : Reader α} {P Q : Bytes → α → Prop} (h : Yields r P)
    (hPQ : ∀ used a, P used a → Q used a) : Yields r Q := by
  intro bytes a rest hrun
  obtain ⟨used, hsplit, hP⟩ := h bytes a rest hrun
  exact ⟨used, hsplit, hPQ used a hP⟩

theorem run_bind_eq_ok_iff {r : Reader α} {f : α → Reader β} {bytes rest : Bytes} {b : β} :
    (r >>= f).run bytes = .ok (b, rest) ↔
      ∃ a mid, r.run bytes = .ok (a, mid) ∧ (f a).run mid = .ok (b, rest) := by
  rw [StateT.run_bind, Fallible.bind_eq_ok_iff]
  constructor
  · rintro ⟨⟨a, mid⟩, hr, hf⟩
    exact ⟨a, mid, hr, hf⟩
  · rintro ⟨a, mid, hr, hf⟩
    exact ⟨(a, mid), hr, hf⟩

/-- Of a sequence, the first reader takes the first bytes and the second one those after them. -/
theorem Yields.bind {r : Reader α} {f : α → Reader β} {P : Bytes → α → Prop} {R : Bytes → β → Prop} (hr : Yields r P)
    (hf : ∀ used a, P used a → Yields (f a) fun used' b => R (used ++ used') b) : Yields (r >>= f) R := by
  intro bytes b rest hrun
  obtain ⟨a, mid, hra, hfb⟩ := run_bind_eq_ok_iff.mp hrun
  obtain ⟨used, rfl, hP⟩ := hr bytes a mid hra
  obtain ⟨used', rfl, hR⟩ := hf used a hP mid b rest hfb
  exact ⟨used ++ used', (List.append_assoc ..).symm, hR⟩

theorem yields_pure {P : Bytes → α → Prop} {a : α} (h : P [] a) : Yields (pure a) P := by
  intro bytes b rest hrun
  cases hrun
  exact ⟨[], rfl, h⟩

theorem yields_throw {P : Bytes → α → Prop} (e : DecodeError) : Yields (throw e) P := by
  intro bytes a rest hrun
  cases hrun

/-- A reader that goes on with a value and takes nothing more. -/
theorem Yields.bind_pure {r : Reader α} {f : α → β} {P : Bytes → α → Prop} {R : Bytes → β → Prop} (hr : Yields r P)
    (hR : ∀ used a, P used a → R used (f a)) : Yields (r >>= fun a => pure (f a)) R := by
  refine hr.bind fun used a hP => yields_pure ?_
  rw [List.append_nil]
  exact hR used a hP

/-! ### Steady readers -/

/-- The reader asks for more bytes, or its answer stands whatever follows; and it takes all that it
looks at. -/
structure Steady (r : Reader α) : Prop where
  waits : ∀ bytes more, r.run bytes = .error .unexpectedEnd ∨
    r.run (bytes ++ more) = (r.run bytes).map fun (a, rest) => (a, rest ++ more)
  takes : Yields r (Reads r)

theorem Steady.bind {r : Reader α} {f : α → Reader β} (hr : Steady r) (hf : ∀ a, Steady (f a)) :
    Steady (r >>= f) where
  waits bytes more := by
    rw [StateT.run_bind, StateT.run_bind]
    rcases hr.waits bytes more with hend | hsame
    · left
      rw [hend]
      rfl
    · rw [hsame]
      cases hrun : r.run bytes with
      | error e => exact .inr rfl
      | ok x => exact (hf x.1).waits x.2 more
  takes := hr.takes.bind fun _ a hreads => (hf a).takes.mono fun _ _ hreads' => hreads.bind hreads'

theorem steady_pure (a : α) : Steady (pure a : Reader α) where
  waits _ _ := .inr rfl
  takes := yields_pure (Reads.pure a)

theorem steady_throw (e : DecodeError) : Steady (throw e : Reader α) where
  waits _ _ := .inr rfl
  takes := yields_throw e

/-! ### The readers of the format -/

theorem yields_readByte : Yields readByte fun used b => used = [b] := by
  intro bytes b rest hrun
  cases bytes with
  | nil => cases hrun
  | cons b' bytes =>
    cases hrun
    exact ⟨[b], rfl, rfl⟩

theorem steady_readByte : Steady readByte where
  waits bytes more := by
    cases bytes with
    | nil => exact .inl rfl
    | cons b bytes => exact .inr rfl
  takes := by
    refine yields_readByte.mono ?_
    rintro _ b rfl
    exact reads_byte b

theorem run_readBytes (n : Nat) (bytes : Bytes) :
    (readBytes n).run bytes =
      if n ≤ bytes.length then .ok (bytes.take n, bytes.drop n) else .error .unexpectedEnd := by
  show readBytes n bytes = _
  unfold readBytes
  simp only [List.length_take]
  by_cases hn : n ≤ bytes.length
  · rw [if_pos hn, if_pos (Nat.min_eq_left hn)]
  · rw [if_neg hn, if_neg (by omega)]

theorem yields_readBytes (n : Nat) : Yields (readBytes n) fun used bytes => used = bytes ∧ bytes.length = n := by
  intro bytes taken rest hrun
  rw [run_readBytes] at hrun
  split at hrun
  · next hn =>
    cases hrun
    exact ⟨bytes.take n, (List.take_append_drop n bytes).symm, rfl, List.length_take_of_le hn⟩
  · cases hrun

theorem steady_readBytes (n : Nat) : Steady (readBytes n) where
  waits bytes more := by
    rw [run_readBytes, run_readBytes]
    by_cases hn : n ≤ bytes.length
    · right
      rw [if_pos hn, if_pos (by rw [List.length_append]; omega), List.take_append_of_le_length hn,
        List.drop_append_of_le_length hn]
      rfl
    · left
      rw [if_neg hn]
  takes := by
    refine (yields_readBytes n).mono ?_
    rintro used _ ⟨rfl, rfl⟩
    exact reads_bytes used

theorem steady_readGroups (last left : Nat) : Steady (readGroups last left) := by
  induction left with
  | zero => exact steady_throw _
  | succ left ih =>
    refine steady_readByte.bind fun b => ?_
    dsimp only
    split
    · split
      · exact steady_throw _
      · exact steady_pure _
    · exact ih.bind fun _ => steady_pure _

theorem steady_readNat (w : Width) : Steady (readNat w) := steady_readGroups _ _

theorem steady_readWord : Steady readWord := (steady_readBytes 8).bind fun _ => steady_pure _

theorem steady_readFlag (e : DecodeError) : Steady (readFlag e) := by
  refine steady_readByte.bind fun b => ?_
  split
  · exact steady_pure _
  · exact steady_pure _
  · exact steady_throw _

theorem steady_readOption {read : Reader α} (h : Steady read) : Steady (readOption read) := by
  refine (steady_readFlag _).bind fun b => ?_
  split
  · exact h.bind fun _ => steady_pure _
  · exact steady_pure _

theorem steady_readString : Steady readString := by
  refine (steady_readNat word).bind fun n => (steady_readBytes n).bind fun bytes => ?_
  split
  · exact steady_pure _
  · exact steady_throw _

theorem steady_readItems {read : Reader α} (h : Steady read) (n : Nat) (items : Array α) :
    Steady (readItems read n items) := by
  induction n generalizing items with
  | zero => exact steady_pure _
  | succ n ih => exact h.bind fun a => ih (items.push a)

theorem steady_readArray {read : Reader α} (h : Steady read) : Steady (readArray read) :=
  (steady_readNat word).bind fun n => steady_readItems h n #[]

/-! ### The readers of programs -/

theorem steady_readValue : Steady readValue := by
  refine (steady_readNat tag).bind fun n => ?_
  split
  · exact steady_pure _
  · exact steady_readWord.bind fun _ => steady_pure _
  · exact (steady_readFlag _).bind fun _ => steady_pure _
  · exact steady_readString.bind fun _ => steady_pure _
  · exact steady_throw _

theorem steady_readOperand : Steady readOperand := by
  refine (steady_readNat tag).bind fun n => ?_
  split
  · exact steady_readValue.bind fun _ => steady_pure _
  · exact steady_readString.bind fun _ => steady_pure _
  · exact steady_readString.bind fun _ => steady_pure _
  · exact steady_throw _

theorem steady_readPlace : Steady readPlace := by
  refine (steady_readNat tag).bind fun n => ?_
  split
  · exact steady_readString.bind fun _ => steady_pure _
  · exact steady_readString.bind fun _ => steady_pure _
  · exact steady_throw _

theorem steady_readTarget : Steady readTarget :=
  steady_readString.bind fun _ => (steady_readOption (steady_readNat word)).bind fun _ => steady_pure _

theorem steady_readParts (k : Kind) : Steady (readParts k) := by
  cases k with
  | push => exact steady_readOperand.bind fun _ => steady_pure _
  | pop => exact steady_readPlace.bind fun _ => steady_pure _
  | move => exact steady_readPlace.bind fun _ => steady_readOperand.bind fun _ => steady_pure _
  | compare => exact steady_readOperand.bind fun _ => steady_readOperand.bind fun _ => steady_pure _
  | adjust delta => exact steady_readString.bind fun _ => steady_pure _
  | jump condition => exact steady_readTarget.bind fun _ => steady_pure _
  | _ => exact steady_pure _

theorem steady_readInstr : Steady readInstr := by
  refine (steady_readNat tag).bind fun n => ?_
  split
  · exact steady_readParts _
  · exact steady_throw _

theorem steady_readProgram : Steady readProgram :=
  (steady_readArray steady_readInstr).bind fun _ =>
    (steady_readArray (steady_readNat word)).bind fun _ => steady_pure _

/-- What a steady reader reads as a value, to the last byte, it cannot read with bytes missing. -/
theorem Steady.truncated {r : Reader α} (hr : Steady r) {bytes more : Bytes} {a : α}
    (hreads : Reads r (bytes ++ more) a) (hmore : more ≠ []) : r.run bytes = .error .unexpectedEnd := by
  rcases hr.waits bytes more with hend | hsame
  · exact hend
  · -- The answer would stand with the missing bytes behind it, but these have been taken.
    have hall := hreads []
    rw [List.append_nil, hsame] at hall
    cases hrun : r.run bytes with
    | error e =>
      rw [hrun] at hall
      cases hall
    | ok x =>
      rw [hrun] at hall
      have hrest : x.2 ++ more = [] := congrArg Prod.snd (Except.ok.inj hall)
      exact absurd (List.append_eq_nil_iff.mp hrest).2 hmore

end Binary

namespace Program

/-- An encoded program that is cut short is refused because its end is missing, wherever it is cut. So no
encoded program is the beginning of another one. -/
theorem decode_of_truncated {p : Program} (h : p.Storable) :
    (∀ part, part <+: p.encode → part ≠ p.encode → Program.decode part = .error .unexpectedEnd) ∧
      ∀ q : Program, q.Storable → q.encode <+: p.encode → q = p := by
  have hcut : ∀ part, part <+: p.encode → part ≠ p.encode → Program.decode part = .error .unexpectedEnd := by
    rintro part ⟨more, hsplit⟩ hne
    have hmore : more ≠ [] := by
      rintro rfl
      exact hne (by rw [← hsplit, List.append_nil])
    have hreads : Binary.Reads Binary.readProgram (part ++ more) p := by
      rw [hsplit]
      exact Binary.reads_program h
    rw [decode, Binary.steady_readProgram.truncated hreads hmore]
    rfl
  refine ⟨hcut, fun q hq hpart => ?_⟩
  have hdecode := decode_encode hq
  by_cases heq : q.encode = p.encode
  · rw [heq, decode_encode h] at hdecode
    exact (Except.ok.inj hdecode).symm
  · rw [hcut q.encode hpart heq] at hdecode
    cases hdecode

/-- A cut between the two bytes of a letter, and one between the two bytes of a line number. -/
theorem decode_of_truncated_inside :
    ∃ p : Program, p = ⟨#[.push (.immediate (.string "λ"))], #[300]⟩ ∧ p.Storable ∧
      p.encode = [1, 0, 0, 3, 2, 0xce, 0xbb, 1, 0xac, 2] ∧
      Program.decode [1, 0, 0, 3, 2, 0xce] = .error .unexpectedEnd ∧
      Program.decode [1, 0, 0, 3, 2, 0xce, 0xbb, 1, 0xac] = .error .unexpectedEnd := by
  refine ⟨_, rfl, ?_⟩
  have hstorable : (⟨#[.push (.immediate (.string "λ"))], #[300]⟩ : Program).Storable := by
    refine ⟨by decide, by decide, ?_, by decide⟩
    simp only [List.mem_toArray, List.mem_singleton, forall_eq]
    show "λ".utf8ByteSize < 2 ^ 64
    decide
  have hencode : (⟨#[.push (.immediate (.string "λ"))], #[300]⟩ : Program).encode =
      [1, 0, 0, 3, 2, 0xce, 0xbb, 1, 0xac, 2] := by
    decide +kernel
  obtain ⟨hcut, -⟩ := decode_of_truncated hstorable
  rw [hencode] at hcut
  exact ⟨hstorable, hencode, hcut _ (by decide) (by decide), hcut _ (by decide) (by decide)⟩

end Program
end StackScript
