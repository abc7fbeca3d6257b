import StackScript.Proofs.Expression.Compile
import StackScript.Proofs.Machine.Run

/-!
# Running an expression

The code of an expression leaves its value on the stack, above what was there. To say this for every
stack, the value is taken with the room that is left (`Expr.evalWithin`); with enough room this is
the value itself. Main statement (`run_script`): the script of an expression compiles, and a run of
it makes no request to the host and gives the value of the expression, its type mismatch, or, if the
stack has less room than the expression needs, an overflow.
-/

namespace StackScript

open Fallible

def Mismatch.fault (x : Mismatch) : Fault := .typeMismatch x.mnemonic x.got

namespace Expr

/-- The value of an expression on a stack of the given capacity that already holds `depth` values. -/
def evalWithin (capacity depth : Nat) : Expr → Except Fault Value
  | .literal l => if depth < capacity then .ok l.value else .error (.stackOverflow capacity)
  | .neg e => do
    let v ← e.evalWithin capacity depth
    v.negated.mapError Mismatch.fault
  | .binary op lhs rhs => do
    let a ← lhs.evalWithin capacity depth
    let b ← rhs.evalWithin capacity (depth + 1)
    (op.combine a b).mapError Mismatch.fault

/-! ### Room on the stack -/

theorem need_pos (e : Expr) : 0 < e.need := by
  induction e with
  | literal l => exact Nat.one_pos
  | neg e ih => exact ih
  | binary op lhs rhs ihl ihr => exact Nat.lt_of_lt_of_le ihl (Nat.le_max_left ..)

variable {capacity depth : Nat} {v : Value}

theorem lt_of_evalWithin_eq_ok {e : Expr} (h : e.evalWithin capacity depth = .ok v) :
    depth < capacity := by
  induction e generalizing v with
  | literal l =>
    unfold evalWithin at h
    split at h
    · assumption
    · simp at h
  | neg e ih =>
    obtain ⟨w, hw, -⟩ := bind_eq_ok_iff.mp h
    exact ih hw
  | binary op lhs rhs ihl ihr =>
    obtain ⟨a, ha, -⟩ := bind_eq_ok_iff.mp h
    exact ihl ha

/-- With enough room, an expression has the value or mismatch that it has without limit. -/
theorem evalWithin_of_need_le {e : Expr} (h : depth + e.need ≤ capacity) :
    e.evalWithin capacity depth = e.eval.mapError Mismatch.fault := by
  induction e generalizing depth with
  | literal l =>
    simp only [need] at h
    rw [evalWithin, if_pos (by omega)]
    rfl
  | neg e ih =>
    rw [evalWithin, eval, ih h]
    cases e.eval <;> rfl
  | binary op lhs rhs ihl ihr =>
    simp only [need] at h
    rw [evalWithin, eval, ihl (by omega)]
    cases lhs.eval with
    | error x => rfl
    | ok a =>
      simp only [ihr (show depth + 1 + rhs.need ≤ capacity by omega)]
      cases rhs.eval <;> rfl

/-- With too little room, an expression that has a value overflows the stack. -/
theorem evalWithin_of_lt_need {e : Expr} (hdepth : depth ≤ capacity) (h : capacity < depth + e.need)
    (hv : e.eval = .ok v) : e.evalWithin capacity depth = .error (.stackOverflow capacity) := by
  induction e generalizing depth v with
  | literal l =>
    simp only [need] at h
    rw [evalWithin, if_neg (by omega)]
  | neg e ih =>
    obtain ⟨w, hw, -⟩ := bind_eq_ok_iff.mp hv
    rw [evalWithin, ih hdepth h hw]
    rfl
  | binary op lhs rhs ihl ihr =>
    obtain ⟨a, ha, hrest⟩ := bind_eq_ok_iff.mp hv
    obtain ⟨b, hb, -⟩ := bind_eq_ok_iff.mp hrest
    simp only [need] at h
    rw [evalWithin]
    by_cases hroom : capacity < depth + lhs.need
    · rw [ihl hdepth hroom ha]
      rfl
    · -- The left side fits, and its value takes a place that the right side then lacks.
      have hpos := lhs.need_pos
      rw [evalWithin_of_need_le (by omega), ha]
      show rhs.evalWithin capacity (depth + 1) >>= _ = _
      rw [ihr (by omega) (by omega) hb]
      rfl

end Expr

/-! ### Truth -/

theorem Number.isZero_iff {x : Number} : x.isZero = true ↔ x.bits = 0 ∨ x.bits = 0x8000000000000000 := by
  have hlt := x.bits.toNat_lt
  unfold isZero magnitude
  rw [decide_eq_true_iff, ← UInt64.toNat_inj, ← UInt64.toNat_inj]
  show x.bits.toNat % 9223372036854775808 = 0 ↔ x.bits.toNat = 0 ∨ x.bits.toNat = 9223372036854775808
  omega

/-- The machine takes the same values for true. -/
theorem Value.truthy_eq_holds (v : Value) : v.truthy = v.holds := by
  cases v with
  | undefined => rfl
  | boolean b => rfl
  | number x =>
    apply Bool.eq_iff_iff.mpr
    show (!x.isZero) = true ↔ decide _ = true
    rw [decide_eq_true_iff, ← not_or, ← Number.isZero_iff]
    simp
  | string s =>
    apply Bool.eq_iff_iff.mpr
    show (!s.isEmpty) = true ↔ decide _ = true
    simp

/-! ### Code within a program -/

/-- The program has this code at the index. -/
def Program.HasAt (p : Program) (k : Nat) (code : List Instr) :
    Prop := ∀ j i, code[j]? = some i → p.code[k + j]? = some i

namespace Program.HasAt

variable {p : Program} {k : Nat} {i : Instr} {xs ys : List Instr}

theorem left (h : p.HasAt k (xs ++ ys)) : p.HasAt k xs := by
  intro j i hj
  obtain ⟨hlt, -⟩ := List.getElem?_eq_some_iff.mp hj
  exact h j i (by rwa [List.getElem?_append_left hlt])

theorem right (h : p.HasAt k (xs ++ ys)) : p.HasAt (k + xs.length) ys := by
  intro j i hj
  rw [Nat.add_assoc]
  exact h (xs.length + j) i (by rwa [List.getElem?_append_right (by omega), Nat.add_sub_cancel_left])

theorem single (h : p.HasAt k [i]) : p.code[k]? = some i := h 0 i rfl

end Program.HasAt

/-! ### What the code does -/

/-- From the values `vs` at the index `k`, a run comes to a value above `base` at the index `k'`, or
it ends with a fault. All that it changes of the machine is the stack. -/
def Leads {σ : Type} (p : Program) (limits : Limits) (h : Host σ) (m : Machine σ) (vs : List Value) (k : Nat)
    (base : List Value) (k' : Nat) : Except Fault Value → Prop
  | .ok v => ∀ s, ∃ s', Run.Reaches p limits h ⟨m.withStack vs, k, s⟩ ⟨m.withStack (v :: base), k', s'⟩
  | .error e => ∀ s, ∃ s' e' vs', e'.root = e ∧
      Run.Ends p limits h ⟨m.withStack vs, k, s⟩ ⟨.error e', s', m.withStack vs'⟩

namespace Leads

variable {σ : Type} {p : Program} {limits : Limits} {h : Host σ} {m : Machine σ} {vs base base' : List Value}
  {k k₁ k₂ : Nat} {i : Instr} {a b v : Value}

/-- What comes after a value goes on from there. -/
theorem bind {x : Except Fault Value} {f : Value → Except Fault Value} (hx : Leads p limits h m vs k base k₁ x)
    (hf : ∀ v, x = .ok v → Leads p limits h m (v :: base) k₁ base' k₂ (f v)) :
    Leads p limits h m vs k base' k₂ (x >>= f) := by
  cases x with
  | error e => exact hx
  | ok v =>
    have hrest := hf v rfl
    show Leads p limits h m vs k base' k₂ (f v)
    cases hfv : f v with
    | ok w =>
      rw [hfv] at hrest
      intro s
      obtain ⟨s₁, hreaches⟩ := hx s
      obtain ⟨s₂, hreaches'⟩ := hrest s₁
      exact ⟨s₂, hreaches.trans hreaches'⟩
    | error e =>
      rw [hfv] at hrest
      intro s
      obtain ⟨s₁, hreaches⟩ := hx s
      obtain ⟨s₂, e', vs', hroot, hends⟩ := hrest s₁
      exact ⟨s₂, e', vs', hroot, hreaches.ends hends⟩

variable (hlimit : limits.maxSteps = none)

include hlimit

theorem of_next (hi : p.code[k]? = some i)
    (hexec : (Exec.instr h limits.stackCapacity i).on (m.withStack vs) =
      (.ok .next, m.withStack (v :: base))) :
    Leads p limits h m vs k base (k + 1) (.ok v) :=
  fun s => ⟨s + 1, Run.reaches_of_step (Run.step_of_next hlimit hi hexec)⟩

theorem of_fault {e : Fault} (hroot : e.root = e) (hi : p.code[k]? = some i)
    (hexec : (Exec.instr h limits.stackCapacity i).on (m.withStack vs) = (.error e, m.withStack base')) :
    Leads p limits h m vs k base k₁ (.error e) :=
  fun s => ⟨s + 1, _, base', (e.root_locate ..).trans hroot,
    Run.ends_of_step (Run.step_of_fault hlimit hi hexec)⟩

theorem push (hi : p.code[k]? = some (.push (.immediate v))) :
    Leads p limits h m vs k vs (k + 1)
      (if vs.length < limits.stackCapacity then .ok v
       else .error (.stackOverflow limits.stackCapacity)) := by
  split
  · next hlt => exact of_next hlimit hi (by rw [Exec.on_instr_push, if_pos hlt])
  · next hge => exact of_fault hlimit rfl hi (by rw [Exec.on_instr_push, if_neg hge])

theorem negate (hi : p.code[k]? = some .negate) :
    Leads p limits h m (v :: vs) k vs (k + 1) (v.negated.mapError Mismatch.fault) := by
  cases v with
  | number x => exact of_next hlimit hi Exec.on_instr_negate
  | _ => exact of_fault hlimit rfl hi Exec.on_instr_negate

theorem arith {op : Arith} (hlt : vs.length < limits.stackCapacity) (hi : p.code[k]? = some (.arith op)) :
    Leads p limits h m (b :: a :: vs) k vs (k + 1)
      (((BinaryOp.arith op).combine a b).mapError Mismatch.fault) := by
  cases b with
  | number y =>
    cases a with
    | number x =>
      have hcombine :
          (BinaryOp.arith op).combine (.number x) (.number y) = .ok (.number (op.apply x y)) := by
        cases op <;> rfl
      rw [hcombine]
      exact of_next hlimit hi (Exec.on_instr_arith hlt)
    | _ => exact of_fault hlimit rfl hi (Exec.on_instr_arith hlt)
  | _ => exact of_fault hlimit rfl hi (Exec.on_instr_arith hlt)

theorem logic {op : Logic} (hlt : vs.length < limits.stackCapacity) (hi : p.code[k]? = some (.logic op)) :
    Leads p limits h m (b :: a :: vs) k vs (k + 1)
      (((BinaryOp.logic op).combine a b).mapError Mismatch.fault) := by
  have hcombine : (BinaryOp.logic op).combine a b = .ok (op.apply a b) := by
    cases op with
    | and => simp only [BinaryOp.combine, Logic.apply, Value.truthy_eq_holds, Fallible.pure_eq_ok]
    | or => simp only [BinaryOp.combine, Logic.apply, Value.truthy_eq_holds, Fallible.pure_eq_ok]
  rw [hcombine]
  exact of_next hlimit hi (Exec.on_instr_logic hlt)

/-- The code of an expression computes its value above whatever the stack holds. -/
theorem code (e : Expr) (hat : p.HasAt k e.code) :
    Leads p limits h m vs k vs (k + e.code.length) (e.evalWithin limits.stackCapacity vs.length) := by
  induction e generalizing vs k with
  | literal l => exact push hlimit hat.single
  | neg e ih =>
    rw [Expr.code, List.length_append, ← Nat.add_assoc]
    exact (ih hat.left).bind fun v _ => negate hlimit hat.right.single
  | binary op lhs rhs ihl ihr =>
    rw [Expr.code, List.append_assoc] at hat
    rw [Expr.code, List.length_append, List.length_append, ← Nat.add_assoc, ← Nat.add_assoc]
    -- The right side runs above the left value, hence the hypotheses at two different stacks.
    refine (ihl hat.left).bind fun a ha => (ihr hat.right.left).bind fun b _ => ?_
    -- The result takes the place that the left value had, so it cannot overflow the stack.
    have hlt : vs.length < limits.stackCapacity := Expr.lt_of_evalWithin_eq_ok ha
    cases op with
    | arith op => exact arith hlimit hlt hat.right.right.single
    | logic op => exact logic hlimit hlt hat.right.right.single

end Leads

/-! ### The script of an expression -/

theorem Program.hasAt_zero (code : List Instr) (lines : Array Nat) :
    (⟨code.toArray, lines⟩ : Program).HasAt 0 code := by
  intro j i hj
  simpa using hj

namespace Expr

variable {σ : Type} (h : Host σ) (host : σ) {limits : Limits} {e : Expr} {v : Value} {f : Fault}

/-- How a run of the code of an expression ends. -/
theorem ends_code (hlimit : limits.maxSteps = none) (lines : Array Nat) (e : Expr) :
    ∃ o, (Run.start host).Ends ⟨e.code.toArray, lines⟩ limits h o ∧ o.machine.log = [] ∧
      match e.evalWithin limits.stackCapacity 0 with
      | .ok v => o.result = .ok (some v)
      | .error f => ∃ f', o.result = .error f' ∧ f'.root = f := by
  have hleads : Leads ⟨e.code.toArray, lines⟩ limits h (.initial host) [] 0 [] (0 + e.code.length)
      (e.evalWithin limits.stackCapacity 0) := .code hlimit e (Program.hasAt_zero e.code lines)
  cases hval : e.evalWithin limits.stackCapacity 0 with
  | ok v =>
    rw [hval] at hleads
    obtain ⟨s, hreaches⟩ := hleads 0
    exact ⟨_, hreaches.ends_of_end (by simp), rfl, rfl⟩
  | error f =>
    rw [hval] at hleads
    obtain ⟨s, f', vs, hroot, hends⟩ := hleads 0
    exact ⟨_, hends, rfl, f', rfl, hroot⟩

/-- The script of an expression compiles. On a stack with the room that the expression needs, the
program makes no request to its host and gives the value of the expression, or the fault of the type
mismatch in it. With less room it overflows the stack. So it goes whenever there is memory for the stack. -/
theorem run_script (e : Expr) :
    ∃ p, Program.compile .standard e.script = .ok p ∧
      ∀ {σ : Type} (h : Host σ) (host : σ) (limits : Limits), limits.maxSteps = none →
        (e.need ≤ limits.stackCapacity →
          ∃ o, (∃ fuel, p.run? limits h host fuel = some o) ∧
            (Stack.Fits limits.stackCapacity → ∃ fuel, p.launch? limits h host fuel = some (.ended o)) ∧
            o.machine.log = [] ∧
            match e.eval with
            | .ok v => o.result = .ok (some v)
            | .error x => ∃ f, o.result = .error f ∧ f.root = .typeMismatch x.mnemonic x.got) ∧
        (limits.stackCapacity < e.need → ∀ v, e.eval = .ok v →
          ∃ o, (∃ fuel, p.run? limits h host fuel = some o) ∧
            (Stack.Fits limits.stackCapacity → ∃ fuel, p.launch? limits h host fuel = some (.ended o)) ∧
            o.machine.log = [] ∧
            ∃ f, o.result = .error f ∧ f.root = .stackOverflow limits.stackCapacity) := by
  refine ⟨_, e.compile_script, fun h host limits hlimit => ?_⟩
  simp only [Run.exists_run?_iff, Run.exists_launch?_iff]
  obtain ⟨o, hends, hlog, hresult⟩ := ends_code h host hlimit (List.range' 1 e.code.length).toArray e
  constructor
  · intro hroom
    refine ⟨o, hends, fun hfits => ⟨hfits, hends⟩, hlog, ?_⟩
    -- With room for the expression, the limit does not show.
    rw [evalWithin_of_need_le (by omega)] at hresult
    cases heval : e.eval with
    | ok v => rw [heval] at hresult; exact hresult
    | error x => rw [heval] at hresult; exact hresult
  · intro hroom v hv
    rw [evalWithin_of_lt_need (Nat.zero_le _) (by omega) hv] at hresult
    exact ⟨o, hends, fun hfits => ⟨hfits, hends⟩, hlog, hresult⟩

/-- Both sides of `true and "x"` are on the stack at once, so that it needs room for two values. -/
theorem run_script_two_values :
    ∃ p, Program.compile .standard "push #true\npush #\"x\"\nand\n" = .ok p ∧
      (∃ o, (∃ fuel, p.launch? { stackCapacity := 2 } Host.store ∅ fuel = some (.ended o)) ∧
        o.result = .ok (some (.string "x"))) ∧
      ∃ o, (∃ fuel, p.launch? { stackCapacity := 1 } Host.store ∅ fuel = some (.ended o)) ∧
        ∃ f, o.result = .error f ∧ f.root = .stackOverflow 1 := by
  obtain ⟨p, hcompile, hrun⟩ := run_script (.binary (.logic .and) (.literal (.boolean true))
    (.literal (.string ['x'] (by decide) (by simp [Line.isBreak]))))
  obtain ⟨o, -, hends, -, hresult⟩ := (hrun Host.store ∅ { stackCapacity := 2 } rfl).1 (by decide)
  obtain ⟨o', -, hends', -, hresult'⟩ := (hrun Host.store ∅ { stackCapacity := 1 } rfl).2 (by decide) _ rfl
  exact ⟨p, hcompile, ⟨o, hends (by decide), hresult⟩, o', hends' (by decide), hresult'⟩

end Expr
end StackScript
