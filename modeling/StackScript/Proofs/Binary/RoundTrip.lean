import StackScript.Binary.Program
import StackScript.Proofs.Binary.Reads

/-!
# Stored programs are read back

Main statement (`decode_encode_append`): a program that is encoded, with anything after it, decodes
to itself. Lengths, positions and lines are stored as naturals below `2 ^ 64`; a program in which
all of them are is `Storable`.
-/

namespace StackScript

/-! ### What can be stored -/

def Value.Storable : Value → Prop
  | .string s => s.utf8ByteSize < 2 ^ 64
  | .undefined | .number _ | .boolean _ => True

def Operand.Storable : Operand → Prop
  | .immediate value => value.Storable
  | .register name | .direct name => name.utf8ByteSize < 2 ^ 64

def Place.Storable : Place → Prop
  | .register name | .direct name => name.utf8ByteSize < 2 ^ 64

def Target.Storable (t : Target) : Prop := t.label.utf8ByteSize < 2 ^ 64 ∧ ∀ n ∈ t.position, n < 2 ^ 64

def Instr.Storable : Instr → Prop
  | .push src => src.Storable
  | .pop dst => dst.Storable
  | .move dst src => dst.Storable ∧ src.Storable
  | .compare lhs rhs => lhs.Storable ∧ rhs.Storable
  | .adjust _ register => register.utf8ByteSize < 2 ^ 64
  | .jump _ target => target.Storable
  | .arith _ | .negate | .logic _ | .nop => True

/-- The lengths, positions and lines of a program are below `2 ^ 64`. -/
structure Program.Storable (p : Program) : Prop where
  code_size : p.code.size < 2 ^ 64
  lines_size : p.lines.size < 2 ^ 64
  code : ∀ i ∈ p.code, i.Storable
  lines : ∀ n ∈ p.lines, n < 2 ^ 64

namespace Binary

/-! ### Values and operands -/

/-- A tag that nothing follows. -/
theorem Reads.tag {α : Type} {f : Nat → Reader α} {n : Nat} {a : α} (hn : n < 2 ^ 32) (h : Reads (f n) [] a) :
    Reads (readNat Binary.tag >>= f) (writeNat n) a := by
  have hread := (reads_nat_tag hn).bind h
  rwa [List.append_nil] at hread

theorem reads_value {v : Value} (h : v.Storable) : Reads readValue (writeValue v) v := by
  cases v with
  | undefined => exact Reads.tag (by decide) (Reads.pure _)
  | number x => exact (reads_nat_tag (by decide)).bind (reads_word x.bits).bind_pure
  | boolean b => exact (reads_nat_tag (by decide)).bind (reads_flag .badBoolean b).bind_pure
  | string s => exact (reads_nat_tag (by decide)).bind (reads_string h).bind_pure

theorem reads_operand {a : Operand} (h : a.Storable) : Reads readOperand (writeOperand a) a := by
  cases a with
  | immediate value => exact (reads_nat_tag (by decide)).bind (reads_value h).bind_pure
  | register name => exact (reads_nat_tag (by decide)).bind (reads_string h).bind_pure
  | direct name => exact (reads_nat_tag (by decide)).bind (reads_string h).bind_pure

theorem reads_place {a : Place} (h : a.Storable) : Reads readPlace (writePlace a) a := by
  cases a with
  | register name => exact (reads_nat_tag (by decide)).bind (reads_string h).bind_pure
  | direct name => exact (reads_nat_tag (by decide)).bind (reads_string h).bind_pure

theorem reads_target {t : Target} (h : t.Storable) : Reads readTarget (writeTarget t) t := by
  obtain ⟨hlabel, hposition⟩ := h
  exact (reads_string hlabel).bind (reads_option fun n hn => reads_nat_word (hposition n hn)).bind_pure

/-! ### Instructions -/

theorem kinds_kindTag (k : Kind) : kinds[kindTag k]? = some k := by
  rcases k with _ | _ | _ | _ | (_ | _ | _ | _) | _ | (_ | _) | (_ | _) | (_ | _ | _) | _ <;> rfl

theorem kindTag_lt (k : Kind) : kindTag k < 2 ^ 32 := by
  obtain ⟨hlt, -⟩ := Array.getElem?_eq_some_iff.mp (kinds_kindTag k)
  exact Nat.lt_trans hlt (by decide)

theorem reads_parts {i : Instr} (h : i.Storable) : Reads (readParts i.kind) (writeParts i) i := by
  cases i with
  | push src => exact (reads_operand h).bind_pure
  | pop dst => exact (reads_place h).bind_pure
  | move dst src => exact (reads_place h.1).bind (reads_operand h.2).bind_pure
  | compare lhs rhs => exact (reads_operand h.1).bind (reads_operand h.2).bind_pure
  | adjust delta register => exact (reads_string h).bind_pure
  | jump condition target => exact (reads_target h).bind_pure
  | _ => exact Reads.pure _

theorem reads_instr {i : Instr} (h : i.Storable) : Reads readInstr (writeInstr i) i := by
  refine (reads_nat_tag (kindTag_lt i.kind)).bind ?_
  rw [kinds_kindTag]
  exact reads_parts h

/-! ### Programs -/

theorem reads_program {p : Program} (h : p.Storable) : Reads readProgram (writeProgram p) p := by
  have hcode := reads_array h.code_size fun i hi => reads_instr (h.code i hi)
  have hlines := reads_array h.lines_size fun n hn => reads_nat_word (h.lines n hn)
  exact hcode.bind hlines.bind_pure

end Binary

theorem Program.decode_encode {p : Program} (h : p.Storable) : Program.decode p.encode = .ok p := by
  have hread := Binary.reads_program h []
  rw [List.append_nil] at hread
  rw [decode, encode, hread]
  rfl

/-- Decoding undoes encoding, whatever follows the encoded program. -/
theorem Program.decode_encode_append {p : Program} (h : p.Storable) (rest : Bytes) :
    Program.decode (p.encode ++ rest) = .ok p := by
  rw [decode, encode, Binary.reads_program h rest]
  rfl

/-- A program with a string outside ASCII, an undefined value, a NaN with a payload, jumps with and
without a position, and fewer lines than instructions. -/
theorem Program.decode_encode_append_mixed :
    ∃ p : Program,
      p = ⟨#[.move (.direct "λ") (.immediate .undefined), .push (.immediate (.number ⟨0x7ff8000000000001⟩)),
          .jump .falsy ⟨"end", none⟩, .jump .always ⟨"end", some (2 ^ 64 - 1)⟩], #[128, 2 ^ 63]⟩ ∧
        p.Storable ∧ Program.decode (p.encode ++ [0xff]) = .ok p := by
  refine ⟨_, rfl, ?_⟩
  have h : (⟨#[.move (.direct "λ") (.immediate .undefined), .push (.immediate (.number ⟨0x7ff8000000000001⟩)),
      .jump .falsy ⟨"end", none⟩, .jump .always ⟨"end", some (2 ^ 64 - 1)⟩], #[128, 2 ^ 63]⟩ : Program).Storable := by
    refine ⟨by decide, by decide, ?_, by decide⟩
    simp only [List.mem_toArray, List.mem_cons, List.not_mem_nil, or_false, forall_eq_or_imp, forall_eq]
    exact ⟨⟨show "λ".utf8ByteSize < 2 ^ 64 by decide, trivial⟩, trivial, ⟨by decide, by simp⟩, by decide, by simp⟩
  exact ⟨h, decode_encode_append h [0xff]⟩

end StackScript
