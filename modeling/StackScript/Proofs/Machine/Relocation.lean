import StackScript.Proofs.Machine.Control
import Mathlib.Data.List.Forall2

/-!
# Programs with room made in them

Instructions put into a program move those behind them, and with them the goals of jumps. `Program.Opens`
says that `p'` is `p` with room made for `d` instructions on `l` lines at the index `q`; the goals of jumps
are related by `To`, since a jump to `q` may go to before or behind what was put in.

One step of `p` is then one step of `p'` on the same machine (`moved_step`). If from each goal `p'` comes
back to the corresponding instruction with the machine unchanged, in at most `b` steps, then every run of
`p` is followed by `p'` (`moved_advance`), and the two end alike or not at all (`exists_ends_moved`,
`exists_ends_iff`).
-/

namespace StackScript

variable {σ : Type} {h : Host σ} {capacity : Nat} {To : Nat → Nat → Prop}

/-! ### Instructions with other goals -/

/-- The second instruction is the first, but where the first goes to `k`, it goes to some `k'` with
`To k k'`. -/
inductive Instr.Moved (To : Nat → Nat → Prop) : Instr → Instr → Prop where
  | plain {i : Instr} (h : i.target? = none) : Moved To i i
  | jump {condition : Condition} {label : String} {k k' : Option Nat} (h : Option.Rel To k k') :
      Moved To (.jump condition ⟨label, k⟩) (.jump condition ⟨label, k'⟩)

namespace Exec

/-- The outcomes of two instructions correspond: the machines and the faults are the same. -/
inductive Alike (To : Nat → Nat → Prop) : Except Fault Flow × Machine σ → Except Fault Flow × Machine σ → Prop where
  | error {e : Fault} {m : Machine σ} : Alike To (.error e, m) (.error e, m)
  | next {m : Machine σ} : Alike To (.ok .next, m) (.ok .next, m)
  | jump {k k' : Nat} {m : Machine σ} (h : To k k') : Alike To (.ok (.jump k), m) (.ok (.jump k'), m)

theorem alike_goto {k k' : Option Nat} (hk : Option.Rel To k k') (label : String) (m : Machine σ) :
    Alike To ((goto ⟨label, k⟩ : Exec σ Flow).on m) ((goto ⟨label, k'⟩ : Exec σ Flow).on m) := by
  cases hk with
  | some hto => exact .jump hto
  | none => exact .error

theorem alike_instr {i j : Instr} (hmoved : i.Moved To j) (m : Machine σ) :
    Alike To ((instr h capacity i).on m) ((instr h capacity j).on m) := by
  cases hmoved with
  | plain htarget =>
    rcases hon : (instr h capacity i).on m with ⟨e | flow, m'⟩
    · exact .error
    · -- Without a target there is only the next instruction to go to.
      have hflow := leadsTo_instr i m flow m' hon
      cases flow with
      | next => exact .next
      | jump k =>
        obtain ⟨label, hlabel⟩ := hflow
        cases htarget.symm.trans hlabel
  | @jump condition label k k' hk =>
    have hpopped : Alike To
        ((do let v ← pop; if condition.holds v then goto ⟨label, k⟩ else pure .next : Exec σ Flow).on m)
        ((do let v ← pop; if condition.holds v then goto ⟨label, k'⟩ else pure .next : Exec σ Flow).on m) := by
      rw [on_bind, on_bind]
      rcases (pop : Exec σ Value).on m with ⟨e | v, m'⟩
      · exact .error
      · show Alike To ((if condition.holds v then goto ⟨label, k⟩ else pure .next : Exec σ Flow).on m')
          ((if condition.holds v then goto ⟨label, k'⟩ else pure .next : Exec σ Flow).on m')
        split
        · exact alike_goto hk label m'
        · exact .next
    cases condition with
    | always => exact alike_goto hk label m
    | falsy => exact hpopped
    | truthy => exact hpopped

end Exec

/-! ### Room in a program -/

/-- Where the instruction at `k` is when `d` instructions are put in at the index `q`. -/
def Program.opened (q d k : Nat) : Nat := if q ≤ k then k + d else k

/-- The fault as it is reported when `d` instructions on `l` lines are put in at the index `q`. -/
def Fault.moved (q d l : Nat) : Fault → Fault
  | .located k n e => if q ≤ k then .located (k + d) (n + l) e else .located k n e
  | e => e

theorem Fault.root_moved (q d l : Nat) (e : Fault) : (e.moved q d l).root = e.root := by
  cases e with
  | located k n e =>
    rw [moved]
    split <;> rfl
  | _ => rfl

theorem Fault.mapError_root_moved {α : Type} {q d l : Nat} (x : Except Fault α) :
    (x.mapError (moved q d l)).mapError root = x.mapError root := by
  cases x with
  | ok a => rfl
  | error e => exact congrArg Except.error (root_moved q d l e)

/-- The outcome as it is when instructions are put in, and `s` steps more are taken. -/
def Outcome.moved (q d l s : Nat) (o : Outcome σ) : Outcome σ :=
  ⟨o.result.mapError (Fault.moved q d l), o.steps + s, o.machine⟩

/-- `p'` is `p` with room made for `d` instructions on `l` lines at the index `q`. -/
structure Program.Opens (p p' : Program) (q d l : Nat) (To : Nat → Nat → Prop) : Prop where
  code : ∀ k, Option.Rel (Instr.Moved To) p.code[k]? p'.code[opened q d k]?
  line : ∀ k < p.size, p'.line (opened q d k) = if q ≤ k then p.line k + l else p.line k
  next : ∀ k < p.size, To (k + 1) (opened q d k + 1)

namespace Program

theorem rel_getElem?_of_forall₂ {α β : Type} {R : α → β → Prop} {xs : List α} {ys : List β}
    (hxs : List.Forall₂ R xs ys) (k : Nat) : Option.Rel R xs[k]? ys[k]? := by
  induction hxs generalizing k with
  | nil => exact .none
  | cons hfirst _ ih =>
    cases k with
    | zero => exact .some hfirst
    | succ k => exact ih k

/-- An item behind the place where others are put in. -/
theorem getElem?_opened_of_le {α : Type} {xs ys zs : List α} {k : Nat} (hk : xs.length ≤ k) :
    (xs ++ (ys ++ zs))[k + ys.length]? = zs[k - xs.length]? := by
  rw [List.getElem?_append_right (by omega), List.getElem?_append_right (by omega)]
  congr 1
  omega

/-- Room is made by putting in code with its lines. -/
theorem opens_of_append {p p' : Program} {cs cs' ds ds' mid : List Instr} {ns ms midLines : List Nat} {l : Nat}
    (hcode : p.code.toList = cs ++ ds) (hcode' : p'.code.toList = cs' ++ (mid ++ ds'))
    (hcs : List.Forall₂ (Instr.Moved To) cs cs') (hds : List.Forall₂ (Instr.Moved To) ds ds')
    (hlines : p.lines.toList = ns ++ ms) (hlines' : p'.lines.toList = ns ++ (midLines ++ ms.map (· + l)))
    (hns : ns.length = cs.length) (hmid : midLines.length = mid.length) (hms : ms.length = ds.length)
    (hnext : ∀ k < p.size, To (k + 1) (opened cs.length mid.length k + 1)) :
    p.Opens p' cs.length mid.length l To where
  code k := by
    rw [← Array.getElem?_toList, ← Array.getElem?_toList, hcode, hcode', opened]
    split
    · next hle =>
      rw [List.getElem?_append_right hle, hcs.length_eq, getElem?_opened_of_le (hcs.length_eq ▸ hle)]
      exact rel_getElem?_of_forall₂ hds _
    · next hlt =>
      rw [List.getElem?_append_left (by omega), List.getElem?_append_left (by rw [← hcs.length_eq]; omega)]
      exact rel_getElem?_of_forall₂ hcs k
  line k hk := by
    have hsize : k < cs.length + ds.length := by
      rw [size, ← Array.length_toList, hcode, List.length_append] at hk
      exact hk
    rw [line, line, line?, line?, ← Array.getElem?_toList, ← Array.getElem?_toList, hlines, hlines', opened]
    split
    · next hle =>
      rw [← hmid, getElem?_opened_of_le (hns ▸ hle), List.getElem?_append_right (hns ▸ hle), List.getElem?_map,
        List.getElem?_eq_getElem (by omega)]
      rfl
    · next hlt => rw [List.getElem?_append_left (by omega), List.getElem?_append_left (by omega)]
  next := hnext

end Program

/-- The second run corresponds to the first, and has taken `s` steps more. -/
inductive Progress.Moved (To : Nat → Nat → Prop) (q d l s : Nat) : Progress σ → Progress σ → Prop where
  | running {m : Machine σ} {k k' n : Nat} (h : To k k') :
      Moved To q d l s (.running ⟨m, k, n⟩) (.running ⟨m, k', n + s⟩)
  | ended {o : Outcome σ} : Moved To q d l s (.ended o) (.ended (o.moved q d l s))

namespace Run

variable {p p' : Program} {limits : Limits} {q d l : Nat}

theorem step_of_code {r : Run σ} {i : Instr} (hlimit : limits.maxSteps = none) (hi : p.code[r.index]? = some i) :
    r.step p limits h = r.proceed p ((Exec.instr h limits.stackCapacity i).on r.machine) := by
  simp only [step, hi, hlimit]
  exact execute_eq i

theorem mapError_moved_result (m : Machine σ) : (result m).mapError (Fault.moved q d l) = result m := by
  unfold result
  split <;> rfl

/-- A fault of the moved instruction is the moved fault. -/
theorem moved_locate (hopens : p.Opens p' q d l To) {k : Nat} (hk : k < p.size) {i : Instr} {e : Fault}
    (hcan : i.CanRaise capacity e) :
    e.locate (Program.opened q d k) (p'.line (Program.opened q d k)) = (e.locate k (p.line k)).moved q d l := by
  rw [hcan.locate_eq, hcan.locate_eq, hopens.line k hk, Fault.moved, Program.opened]
  split <;> rfl

/-- From outcomes that correspond, runs proceed in ways that do. -/
theorem moved_proceed (hopens : p.Opens p' q d l To) {k : Nat} (hk : k < p.size)
    {x y : Except Fault Flow × Machine σ} (halike : Exec.Alike To x y) {i : Instr}
    (hcan : ∀ e m', x = (.error e, m') → i.CanRaise capacity e) (m : Machine σ) (n s : Nat) :
    Progress.Moved To q d l s ((⟨m, k, n⟩ : Run σ).proceed p x)
      ((⟨m, Program.opened q d k, n + s⟩ : Run σ).proceed p' y) := by
  cases halike with
  | @error e m' =>
    show Progress.Moved To q d l s (.ended _)
      (.ended ⟨.error (e.locate (Program.opened q d k) (p'.line (Program.opened q d k))), n + s + 1, m'⟩)
    rw [moved_locate hopens hk (hcan e m' rfl), Nat.add_right_comm n s]
    exact .ended
  | @next m' =>
    show Progress.Moved To q d l s (.running ⟨m', k + 1, n + 1⟩) (.running ⟨m', Program.opened q d k + 1, n + s + 1⟩)
    rw [Nat.add_right_comm n s]
    exact .running (hopens.next k hk)
  | @jump t t' m' hto =>
    show Progress.Moved To q d l s (.running ⟨m', t, n + 1⟩) (.running ⟨m', t', n + s + 1⟩)
    rw [Nat.add_right_comm n s]
    exact .running hto

theorem moved_step (hopens : p.Opens p' q d l To) (hlimit : limits.maxSteps = none) (m : Machine σ) (k n s : Nat) :
    Progress.Moved To q d l s ((⟨m, k, n⟩ : Run σ).step p limits h)
      ((⟨m, Program.opened q d k, n + s⟩ : Run σ).step p' limits h) := by
  have hcode := hopens.code k
  generalize hi : p.code[k]? = i? at hcode
  generalize hj : p'.code[Program.opened q d k]? = j? at hcode
  cases hcode with
  | none =>
    have hended : (⟨result m, n + s, m⟩ : Outcome σ) = Outcome.moved q d l s ⟨result m, n, m⟩ := by
      rw [Outcome.moved, mapError_moved_result]
    rw [step_of_end hi, step_of_end hj, hended]
    exact .ended
  | @some i j hmoved =>
    have hcan : ∀ e m', (Exec.instr h limits.stackCapacity i).on m = (.error e, m') →
        i.CanRaise limits.stackCapacity e := by
      intro e m' hon
      exact Exec.raisesOnly_instr i m e ⟨m', hon⟩
    rw [step_of_code hlimit hi, step_of_code hlimit hj]
    exact moved_proceed hopens (Array.getElem?_eq_some_iff.mp hi).1 (Exec.alike_instr hmoved m) hcan m n s

section

variable (hopens : p.Opens p' q d l To) (hlimit : limits.maxSteps = none) {b : Nat}
  (hcatch : ∀ k k', To k k' → ∀ (m : Machine σ) n, ∃ c ≤ b,
    (⟨m, k', n⟩ : Run σ).advance p' limits h c = .running ⟨m, Program.opened q d k, n + c⟩)
  {k k' : Nat} (hk : To k k')

include hopens hlimit hcatch hk

/-- If from each goal `p'` comes to the corresponding instruction, then it follows every run of `p`. -/
theorem moved_advance (j : Nat) (m : Machine σ) (n s : Nat) :
    ∃ c ≤ b * j, Progress.Moved To q d l (s + c) ((⟨m, k, n⟩ : Run σ).advance p limits h j)
      ((⟨m, k', n + s⟩ : Run σ).advance p' limits h (c + j)) := by
  induction j generalizing k k' m n s with
  | zero => exact ⟨0, Nat.zero_le _, .running hk⟩
  | succ j ih =>
    obtain ⟨c, hc, hcaught⟩ := hcatch k k' hk m (n + s)
    have hstep := moved_step (h := h) hopens hlimit m k n (s + c)
    rw [← Nat.add_assoc] at hstep
    -- Having caught up, `p'` is where the next step of `p` is matched by one of its own.
    have hrest (e : Nat) : (⟨m, k', n + s⟩ : Run σ).advance p' limits h (c + e) =
        (⟨m, Program.opened q d k, n + s + c⟩ : Run σ).advance p' limits h e := by
      rw [advance_add, hcaught]
    rw [advance]
    generalize (⟨m, k, n⟩ : Run σ).step p limits h = x at hstep ⊢
    generalize hy : (⟨m, Program.opened q d k, n + s + c⟩ : Run σ).step p' limits h = y at hstep
    cases hstep with
    | @running m₁ k₁ k₁' n₁ hto =>
      obtain ⟨c₁, hc₁, hmoved⟩ := ih hto m₁ n₁ (s + c)
      refine ⟨c + c₁, ?_, ?_⟩
      · rw [Nat.mul_succ]
        omega
      · rw [← Nat.add_assoc s, Nat.add_assoc c, ← Nat.add_assoc c₁, hrest, advance, hy]
        exact hmoved
    | @ended o =>
      refine ⟨c, ?_, ?_⟩
      · rw [Nat.mul_succ]
        omega
      · rw [hrest, advance, hy]
        exact .ended

theorem exists_ends_moved {m : Machine σ} {o : Outcome σ} (hends : (⟨m, k, 0⟩ : Run σ).Ends p limits h o) :
    ∃ c, (⟨m, k', 0⟩ : Run σ).Ends p' limits h (o.moved q d l c) := by
  obtain ⟨j, hj⟩ := hends
  obtain ⟨c, -, hmoved⟩ := moved_advance hopens hlimit hcatch hk j m 0 0
  rw [hj] at hmoved
  generalize hy : (⟨m, k', 0 + 0⟩ : Run σ).advance p' limits h (c + j) = y at hmoved
  cases hmoved
  exact ⟨0 + c, c + j, hy⟩

/-- Since `p'` takes no fewer steps, it does not end unless `p` does. -/
theorem exists_ends_iff {m : Machine σ} :
    (∃ o, (⟨m, k, 0⟩ : Run σ).Ends p limits h o) ↔ ∃ o, (⟨m, k', 0⟩ : Run σ).Ends p' limits h o := by
  constructor
  · rintro ⟨o, hends⟩
    obtain ⟨c, hends'⟩ := exists_ends_moved hopens hlimit hcatch hk hends
    exact ⟨_, hends'⟩
  · -- Were `p` still running after as many steps, so would be `p'`.
    rintro ⟨o, j, hj⟩
    obtain ⟨c, -, hmoved⟩ := moved_advance hopens hlimit hcatch hk j m 0 0
    rw [advance_eq_ended_of_le (Nat.le_add_left j c) hj] at hmoved
    generalize hx : (⟨m, k, 0⟩ : Run σ).advance p limits h j = x at hmoved
    cases hmoved
    exact ⟨_, j, hx⟩

end

end Run
end StackScript
