import StackScript.Proofs.Machine.Requests

/-!
# The variables of a program

A program can only see the variables that are sources of its instructions (`Program.sources`), and it can only
change those that its instructions store to.

What it sees. An instruction does the same under two hosts that answer alike for its sources (`instr_congr`),
so a store may as well keep all other variables to itself. Such a store is `Host.store.showing names`. On it
every action treats two stores alike that agree on `names` (`SeesOnly`), and so every run does
(`advance_withHost`).

What it changes. The requests of an instruction are known, so it is known what they do to a store: one that
succeeds changes its destination only (`get?_of_on_instr_eq_ok`), and one that fails changes nothing
(`host_of_on_instr_eq_error`). So along a run the last write to a variable decides (`leaves_trail`).

Main statement (`only_named_variables`).
-/

namespace StackScript

/-! ### Sources -/

/-- The variable that an operand stands for, if it stands for one. -/
def Operand.variable? : Operand → Option String
  | .direct name => some name
  | .immediate _ | .register _ => none

/-- The variables that an instruction reads. -/
def Instr.sources (i : Instr) : List String := i.reads.filterMap Operand.variable?

/-- The variables that are read by some instruction of a program. -/
def Program.sources (p : Program) : List String := p.code.toList.flatMap Instr.sources

theorem Program.mem_sources {p : Program} {k : Nat} {i : Instr} {name : String} (hi : p.code[k]? = some i)
    (hname : name ∈ i.sources) : name ∈ p.sources := by
  apply List.mem_flatMap.mpr
  exact ⟨i, Array.mem_toList_iff.mpr (Array.mem_of_getElem? hi), hname⟩

namespace Exec

variable {σ : Type} {h h' : Host σ} {capacity : Nat} {i : Instr}

theorem read_congr {src : Operand} (hget : ∀ name, src.variable? = some name → h.get name = h'.get name) :
    read h src = read h' src := by
  cases src with
  | immediate v => rfl
  | register name => rfl
  | direct name =>
    show fetch h name = fetch h' name
    unfold fetch
    rw [hget name rfl]

theorem write_congr (hset : h.set = h'.set) (v : Value) (dst : Place) : write h v dst = write h' v dst := by
  cases dst with
  | register name => rfl
  | direct name =>
    show store h name v = store h' name v
    unfold store
    rw [hset]

/-- An instruction asks its host for nothing but its sources. -/
theorem instr_congr (hget : ∀ name ∈ i.sources, h.get name = h'.get name) (hset : h.set = h'.set) :
    instr h capacity i = instr h' capacity i := by
  have hread : ∀ src ∈ i.reads, read h src = read h' src := by
    intro src hsrc
    apply read_congr
    intro name hname
    exact hget name (List.mem_filterMap.mpr ⟨src, hsrc, hname⟩)
  cases i with
  | push src => simp only [instr, hread src (by simp [Instr.reads])]
  | pop dst => simp only [instr, write_congr hset]
  | move dst src => simp only [instr, hread src (by simp [Instr.reads]), write_congr hset]
  | compare lhs rhs =>
    simp only [instr, hread lhs (by simp [Instr.reads]), hread rhs (by simp [Instr.reads])]
  | jump condition target => cases condition <;> rfl
  | _ => rfl

end Exec

/-! ### Stores that agree -/

/-- The tables have the same entries for some names, or lack the same ones of them. -/
def Table.AgreesOn {α : Type} (names : List String) (s t : Table α) : Prop :=
  ∀ name ∈ names, s.get? name = t.get? name

theorem Table.AgreesOn.insert {α : Type} {names : List String} {s t : Table α} (hagree : s.AgreesOn names t)
    (key : String) (a : α) : (s.insert key a).AgreesOn names (t.insert key a) := by
  intro name hname
  rw [get?_insert, get?_insert, hagree name hname]

/-- A host that answers as `h` for some names, and for the others as if there were no such variables. -/
def Host.showing {σ : Type} (h : Host σ) (names : List String) : Host σ where
  get name s := if name ∈ names then h.get name s else (.error (.unknownVariable name), s)
  set := h.set

theorem Host.get_showing_store {names : List String} {s t : Store} (hagree : s.AgreesOn names t) (name : String) :
    (store.showing names).get name t = (((store.showing names).get name s).1, t) := by
  show (if name ∈ names then store.get name t else _) = ((if name ∈ names then store.get name s else _).1, t)
  split
  · next hname =>
    simp only [store, ← hagree name hname]
    cases s.get? name <;> rfl
  · rfl

/-- The machine with another state of its host. -/
def Machine.withHost {σ : Type} (m : Machine σ) (host : σ) : Machine σ := { m with host }

namespace Machine

variable {σ : Type} (m : Machine σ) (host : σ)

@[simp] theorem host_withHost : (m.withHost host).host = host := rfl

@[simp] theorem stack_withHost : (m.withHost host).stack = m.stack := rfl

@[simp] theorem registers_withHost : (m.withHost host).registers = m.registers := rfl

end Machine

namespace Exec

variable {α β : Type} {names : List String} {i : Instr} {x : Exec Store α} {f : α → Exec Store β}

/-- The action does the same on stores that agree on `names`, and it leaves stores that agree. -/
def SeesOnly (names : List String) (x : Exec Store α) : Prop :=
  ∀ m (t : Store), m.host.AgreesOn names t →
    ∃ t', x.on (m.withHost t) = ((x.on m).1, (x.on m).2.withHost t') ∧ (x.on m).2.host.AgreesOn names t'

theorem SeesOnly.bind (hx : x.SeesOnly names) (hf : ∀ a, (f a).SeesOnly names) : (x >>= f).SeesOnly names := by
  intro m t hagree
  obtain ⟨t₁, hon, hagree₁⟩ := hx m t hagree
  rw [on_bind, on_bind, hon]
  rcases hfirst : x.on m with ⟨e | a, m₁⟩
  · rw [hfirst] at hagree₁
    exact ⟨t₁, rfl, hagree₁⟩
  · rw [hfirst] at hagree₁
    exact hf a m₁ t₁ hagree₁

/-- An action that does the same whatever the state of the host, and leaves it. -/
theorem seesOnly_of_withHost (hx : ∀ m t, x.on (m.withHost t) = ((x.on m).1, (x.on m).2.withHost t)) :
    x.SeesOnly names := by
  intro m t hagree
  have hhost : (x.on m).2.host = m.host := congrArg (fun y => y.2.host) (hx m m.host)
  refine ⟨t, hx m t, ?_⟩
  rw [hhost]
  exact hagree

/-- On a store that shows only `names`, every action sees only these. -/
theorem inherited_seesOnly (names : List String) (capacity : Nat) :
    Inherited (Host.store.showing names) capacity fun _ x => SeesOnly names x where
  pure a := seesOnly_of_withHost fun _ _ => rfl
  bind hx hf := hx.bind hf
  push v := by
    apply seesOnly_of_withHost
    intro m t
    rw [on_push_self, on_push_self, Machine.stack_withHost]
    split <;> rfl
  pop := by
    apply seesOnly_of_withHost
    intro m t
    rw [on_pop_self, on_pop_self, Machine.stack_withHost]
    cases m.stack.items <;> rfl
  negate := by
    apply seesOnly_of_withHost
    intro m t
    rw [on_instr_negate_self, on_instr_negate_self, Machine.stack_withHost]
    cases m.stack.items with
    | nil => rfl
    | cons v vs => cases v <;> rfl
  readRegister name := by
    apply seesOnly_of_withHost
    intro m t
    rw [on_readRegister, on_readRegister, Machine.registers_withHost]
    cases m.registers.get? name <;> rfl
  writeRegister name v := seesOnly_of_withHost fun _ _ => rfl
  number mnemonic v := by
    apply seesOnly_of_withHost
    intro m t
    rw [on_number, on_number]
    cases v.number? <;> rfl
  goto target := by
    unfold Exec.goto
    cases target.position <;> exact seesOnly_of_withHost fun _ _ => rfl
  fetch name := by
    intro m t hagree
    refine ⟨t, ?_, ?_⟩
    · rw [on_fetch, on_fetch, Machine.host_withHost, Host.get_showing_store hagree]
      rfl
    · rw [on_fetch, Host.get_showing_store (s := m.host) fun _ _ => rfl]
      exact hagree
  store name v := by
    intro m t hagree
    exact ⟨t.insert name v, rfl, hagree.insert name v⟩

/-- An instruction sees only its sources. -/
theorem seesOnly_instr (capacity : Nat) (hi : ∀ name ∈ i.sources, name ∈ names) :
    (instr Host.store capacity i).SeesOnly names := by
  have hshowing : instr Host.store capacity i = instr (Host.store.showing names) capacity i := by
    apply instr_congr
    · intro name hname
      funext s
      exact (if_pos (hi name hname)).symm
    · rfl
  rw [hshowing]
  exact (inherited_seesOnly names capacity).instr i

end Exec

/-! ### Runs on stores that agree -/

/-- The run with another state of its host. -/
def Run.withHost {σ : Type} (r : Run σ) (host : σ) : Run σ := { r with machine := r.machine.withHost host }

@[simp] theorem Run.index_withHost {σ : Type} (r : Run σ) (host : σ) : (r.withHost host).index = r.index := rfl

@[simp] theorem Run.steps_withHost {σ : Type} (r : Run σ) (host : σ) : (r.withHost host).steps = r.steps := rfl

/-- What has become of a run, with another state of its host. -/
def Progress.withHost {σ : Type} (host : σ) : Progress σ → Progress σ
  | .running r => .running (r.withHost host)
  | .ended o => .ended { o with machine := o.machine.withHost host }

namespace Run

variable {p : Program} {limits : Limits} {i : Instr} {r : Run Store} {t : Store}

theorem execute_withHost (limits : Limits) (hi : ∀ name ∈ i.sources, name ∈ p.sources)
    (hagree : r.machine.host.AgreesOn p.sources t) :
    ∃ t', (r.withHost t).execute p limits Host.store i = (r.execute p limits Host.store i).withHost t' ∧
      (r.execute p limits Host.store i).machine.host.AgreesOn p.sources t' := by
  obtain ⟨t', hon, hagree'⟩ := Exec.seesOnly_instr limits.stackCapacity hi r.machine t hagree
  rw [execute_eq, execute_eq, machine_proceed]
  refine ⟨t', ?_, hagree'⟩
  show (r.withHost t).proceed p ((Exec.instr Host.store limits.stackCapacity i).on (r.machine.withHost t)) = _
  rw [hon]
  rcases (Exec.instr Host.store limits.stackCapacity i).on r.machine with ⟨e | flow, m'⟩ <;> rfl

theorem step_withHost (limits : Limits) (hagree : r.machine.host.AgreesOn p.sources t) :
    ∃ t', (r.withHost t).step p limits Host.store = (r.step p limits Host.store).withHost t' ∧
      (r.step p limits Host.store).machine.host.AgreesOn p.sources t' := by
  unfold step
  -- The end of the program and the step limit are found whatever is in the store.
  rw [index_withHost, steps_withHost]
  cases hcode : p.code[r.index]? with
  | none => exact ⟨t, rfl, hagree⟩
  | some i =>
    have hexecute := execute_withHost limits (fun _ => Program.mem_sources hcode) hagree
    cases limits.maxSteps with
    | none => exact hexecute
    | some k =>
      by_cases hle : k ≤ r.steps
      · simp only [if_pos hle]
        exact ⟨t, rfl, hagree⟩
      · simp only [if_neg hle]
        exact hexecute

/-- On stores that agree on the sources of the program, runs differ in nothing but the store. -/
theorem advance_withHost (n : Nat) (hagree : r.machine.host.AgreesOn p.sources t) :
    ∃ t', (r.withHost t).advance p limits Host.store n = (r.advance p limits Host.store n).withHost t' := by
  induction n generalizing r t with
  | zero => exact ⟨t, rfl⟩
  | succ n ih =>
    obtain ⟨t₁, hstep, hagree₁⟩ := step_withHost limits hagree
    rw [advance, advance, hstep]
    cases hfirst : r.step p limits Host.store with
    | ended o => exact ⟨t₁, rfl⟩
    | running r₁ =>
      rw [hfirst] at hagree₁
      exact ih hagree₁

end Run

/-! ### What is written -/

namespace Instr

/-- The instruction is to store a value in the variable `name`, and it succeeds. -/
def Writes {σ : Type} (h : Host σ) (capacity : Nat) (name : String) (m : Machine σ) (i : Instr) : Prop :=
  i.destination? = some (.direct name) ∧ ∃ flow m', (Exec.instr h capacity i).on m = (.ok flow, m')

/-- The requests for the operands, then the one for the destination. -/
theorem requests_eq {σ : Type} (h : Host σ) (m : Machine σ) (i : Instr) :
    i.requests h m = i.reads.flatMap Operand.gets ++ i.destination?.toList.flatMap (Place.sets (i.carried? h m)) := by
  cases i <;> simp [requests, reads, destination?, Operand.gets]

end Instr

namespace Host

/-- Reading leaves a store as it is. -/
theorem afterAll_store_of_gets (s : Store) {calls : List Call} (hgets : ∀ name v, .set name v ∉ calls) :
    store.afterAll s calls = s := by
  induction calls with
  | nil => rfl
  | cons c calls ih =>
    cases c with
    | set name v => exact absurd List.mem_cons_self (hgets name v)
    | get name =>
      have hhost : (store.get name s).2 = s := by
        simp only [store]
        cases s.get? name <;> rfl
      show store.afterAll (store.get name s).2 calls = s
      rw [hhost]
      apply ih
      intro name v hmem
      exact hgets name v (List.mem_cons_of_mem _ hmem)

theorem get?_afterAll_sets (s : Store) (dst : Place) (v : Value) (name : String) :
    (store.afterAll s (dst.sets (some v))).get? name = if dst = .direct name then some v else s.get? name := by
  cases dst with
  | register r => simp [Place.sets, Host.afterAll]
  | direct key =>
    show (s.insert key v).get? name = _
    simp [Table.get?_insert]

end Host

namespace Exec

variable {σ : Type} {h : Host σ} {capacity : Nat} {i : Instr}

/-- An instruction that succeeds has had a value for its destination. -/
theorem exists_carried?_eq_some {m m' : Machine σ} {dst : Place} {flow : Flow}
    (hdst : i.destination? = some dst) (hon : (instr h capacity i).on m = (.ok flow, m')) :
    ∃ v, i.carried? h m = some v := by
  cases i with
  | pop dst =>
    obtain ⟨v, _, hpop, -⟩ := on_bind_eq_ok_iff.mp hon
    exact ⟨v, head?_of_on_pop hpop⟩
  | move dst src =>
    obtain ⟨v, _, hread, -⟩ := on_bind_eq_ok_iff.mp hon
    exact ⟨v, value?_of_on_read hread⟩
  | _ => cases hdst

/-- An instruction that fails has not changed the store, for a store refuses no write. -/
theorem host_of_on_instr_eq_error {m m' : Machine Store} {e : Fault}
    (hon : (instr Host.store capacity i).on m = (.error e, m')) : m'.host = m.host := by
  obtain ⟨calls, hlog, hhost⟩ := (kept_requested Host.store capacity).instr i m
  obtain ⟨-, made, -, hlog', hnothing⟩ := (asks_instr i m).error e m' hon
  rw [hon] at hlog hhost
  obtain rfl : made = calls := List.append_cancel_left (hlog'.symm.trans hlog)
  rw [hhost]
  apply Host.afterAll_store_of_gets
  intro name v hmem
  -- A write among the requests would have been refused.
  obtain ⟨before, fault, -, -, hrefusal⟩ := hnothing name v hmem
  cases hrefusal

theorem host_of_on_instr_eq_ok {m m' : Machine σ} {flow : Flow} (hon : (instr h capacity i).on m = (.ok flow, m')) :
    m'.host = h.afterAll m.host (i.requests h m) := by
  obtain ⟨calls, hlog, hhost⟩ := (kept_requested h capacity).instr i m
  rw [hon] at hlog hhost
  have hlog' := (asks_instr i m).ok flow m' hon
  obtain rfl : i.requests h m = calls := List.append_cancel_left (hlog'.symm.trans hlog)
  exact hhost

/-- An instruction that succeeds has changed the store at its destination and nowhere else. -/
theorem get?_of_on_instr_eq_ok {m m' : Machine Store} {flow : Flow}
    (hon : (instr Host.store capacity i).on m = (.ok flow, m')) (name : String) :
    m'.host.get? name =
      if i.destination? = some (.direct name) then i.carried? Host.store m else m.host.get? name := by
  have hgets : Host.store.afterAll m.host (i.reads.flatMap Operand.gets) = m.host := by
    apply Host.afterAll_store_of_gets
    intro name v hmem
    obtain ⟨src, -, hmem⟩ := List.mem_flatMap.mp hmem
    cases src <;> simp [Operand.gets] at hmem
  rw [host_of_on_instr_eq_ok hon, Instr.requests_eq, Host.afterAll_append, hgets]
  cases hdst : i.destination? with
  | none => rfl
  | some dst =>
    obtain ⟨v, hv⟩ := exists_carried?_eq_some hdst hon
    rw [hv, Option.toList_some, List.flatMap_singleton, Host.get?_afterAll_sets]
    simp only [Option.some.injEq]

end Exec

namespace Run

open Exec

variable {σ : Type} {h : Host σ} {capacity : Nat} {name : String}

/-- After the instructions `ran` the variable `name` has the value `new`, where it had `old` before: either
none of them has stored anything in it, or `new` is what was stored last. -/
inductive Leaves (h : Host σ) (capacity : Nat) (name : String) (ran : List (Machine σ × Instr))
    (old : Option Value) : (new : Option Value) → Prop where
  | untouched (never : ∀ x ∈ ran, ¬x.2.Writes h capacity name x.1) : Leaves h capacity name ran old old
  | stored {before after : List (Machine σ × Instr)} {m : Machine σ} {i : Instr} {v : Value}
      (split : ran = before ++ (m, i) :: after) (writes : i.Writes h capacity name m)
      (carried : i.carried? h m = some v) (last : ∀ x ∈ after, ¬x.2.Writes h capacity name x.1) :
      Leaves h capacity name ran old (some v)

theorem Leaves.cons {x : Machine σ × Instr} {ran : List (Machine σ × Instr)} {old mid new : Option Value}
    (hfirst : Leaves h capacity name [x] old mid) (hrest : Leaves h capacity name ran mid new) :
    Leaves h capacity name (x :: ran) old new := by
  -- The last write is among the later instructions, or else it is the first one's.
  cases hrest with
  | @stored before after m i v hsplit hwrites hcarried hlast =>
    have hcons : x :: ran = (x :: before) ++ (m, i) :: after := congrArg (x :: ·) hsplit
    exact .stored hcons hwrites hcarried hlast
  | untouched hnever =>
    cases hfirst with
    | untouched hx =>
      apply Leaves.untouched
      intro y hy
      rcases List.mem_cons.mp hy with rfl | hy
      · exact hx y (List.mem_singleton_self y)
      · exact hnever y hy
    | @stored before after m i v hsplit hwrites hcarried hlast =>
      obtain ⟨rfl, rfl⟩ : before = [] ∧ x = (m, i) := by
        cases before with
        | nil => exact ⟨rfl, (List.cons.inj hsplit).1⟩
        | cons y before => simp at hsplit
      have hcons : (m, i) :: ran = [] ++ (m, i) :: ran := rfl
      exact .stored hcons hwrites hcarried hnever

/-- What an instruction makes of a store. -/
theorem leaves_instr (capacity : Nat) (name : String) (i : Instr) (m : Machine Store) :
    Leaves Host.store capacity name [(m, i)] (m.host.get? name)
      (((instr Host.store capacity i).on m).2.host.get? name) := by
  have huntouched (hnot : ¬i.Writes Host.store capacity name m) :
      Leaves Host.store capacity name [(m, i)] (m.host.get? name) (m.host.get? name) := by
    apply Leaves.untouched
    intro x hx
    cases List.mem_singleton.mp hx
    exact hnot
  rcases hon : (instr Host.store capacity i).on m with ⟨e | flow, m'⟩
  · rw [host_of_on_instr_eq_error hon]
    apply huntouched
    rintro ⟨-, flow, m'', hok⟩
    cases hon.symm.trans hok
  · show Leaves _ _ _ _ _ (m'.host.get? name)
    rw [get?_of_on_instr_eq_ok hon]
    by_cases hdst : i.destination? = some (.direct name)
    · obtain ⟨v, hv⟩ := exists_carried?_eq_some hdst hon
      rw [if_pos hdst, hv]
      exact .stored (List.nil_append _).symm ⟨hdst, flow, m', hon⟩ hv (List.forall_mem_nil _)
    · rw [if_neg hdst]
      apply huntouched
      intro hwrites
      exact hdst hwrites.1

/-- Along a run, also one that fails, the last write to a variable decides its value. -/
theorem leaves_trail (p : Program) (limits : Limits) (name : String) (n : Nat) (r : Run Store) :
    Leaves Host.store limits.stackCapacity name (r.trail p limits Host.store n) (r.machine.host.get? name)
      ((r.advance p limits Host.store n).machine.host.get? name) := by
  induction n generalizing r with
  | zero => exact .untouched (List.forall_mem_nil _)
  | succ n ih =>
    rw [trail, advance]
    -- At the end of the program and at the step limit nothing is executed.
    obtain ⟨-, hnext, hstep⟩ | ⟨_, _, -, -, -, hnext, hstep⟩ | ⟨i, -, hnext, hstep⟩ :=
      step_cases p limits Host.store r
    · rw [hnext, hstep]
      exact .untouched (List.forall_mem_nil _)
    · rw [hnext, hstep]
      exact .untouched (List.forall_mem_nil _)
    · have hfirst := leaves_instr limits.stackCapacity name i r.machine
      rw [hnext, hstep, execute_eq]
      rcases hon : (instr Host.store limits.stackCapacity i).on r.machine with ⟨e | flow, m'⟩
      · rw [hon] at hfirst
        exact hfirst
      · rw [hon] at hfirst
        exact hfirst.cons (ih ⟨m', flow.after r.index, r.steps + 1⟩)

end Run

open Run

/-- A program sees and touches only the variables that it names. On two stores that agree on the sources of its
instructions, it has the same result after the same number of steps, and it has made the same requests, whether
it has ended or not. And a variable has the value that a successful instruction has stored in it last, or
keeps its value if there is none, also in a run that fails. -/
theorem only_named_variables (p : Program) (limits : Limits) (s : Store) (n : Nat) :
    (∀ t : Store, s.AgreesOn p.sources t →
      (p.run? limits Host.store t n).map (fun o => (o.result, o.steps)) =
          (p.run? limits Host.store s n).map (fun o => (o.result, o.steps)) ∧
        ((start t).advance p limits Host.store n).machine.log =
          ((start s).advance p limits Host.store n).machine.log) ∧
      ∀ name, Leaves Host.store limits.stackCapacity name ((start s).trail p limits Host.store n) (s.get? name)
        (((start s).advance p limits Host.store n).machine.host.get? name) := by
  refine ⟨?_, fun name => leaves_trail p limits name n (start s)⟩
  intro t hagree
  obtain ⟨t', hrun⟩ : ∃ t', (start t).advance p limits Host.store n = _ :=
    advance_withHost (r := start s) n hagree
  unfold Program.run?
  rw [hrun]
  cases (start s).advance p limits Host.store n with
  | running r => exact ⟨rfl, rfl⟩
  | ended o => exact ⟨rfl, rfl⟩

/-- A variable, a register and a label are called `y`. The value of the variable makes no difference, and it
ends as what is moved there from the register before the last instruction fails. -/
theorem only_named_variables_same_name :
    let p : Program := ⟨#[.push (.direct "x"), .pop (.register "y"), .jump .always ⟨"y", some 4⟩, .nop,
      .move (.direct "y") (.register "y"), .arith .add], #[]⟩
    let s : Store := (∅ : Store).insert "x" (.boolean true)
    let t : Store := s.insert "y" (.string "old")
    p.sources = ["x"] ∧ s.AgreesOn p.sources t ∧ s.get? "y" ≠ t.get? "y" ∧
      (p.run? ⟨1, none⟩ Host.store s 6).map (fun o => (o.result, o.steps)) =
        some (.error (.located 5 0 .stackUnderflow), 5) ∧
      (p.run? ⟨1, none⟩ Host.store t 6).map (fun o => (o.result, o.steps)) =
        some (.error (.located 5 0 .stackUnderflow), 5) ∧
      Leaves Host.store 1 "y" ((start t).trail p ⟨1, none⟩ Host.store 6) (some (.string "old"))
        (some (.boolean true)) := by
  intro p s t
  have hagree : s.AgreesOn p.sources t := by
    intro name hname
    cases List.mem_singleton.mp hname
    rfl
  have hrun : (p.run? ⟨1, none⟩ Host.store s 6).map (fun o => (o.result, o.steps)) =
      some (.error (.located 5 0 .stackUnderflow), 5) := rfl
  refine ⟨rfl, hagree, by decide, hrun, ?_, ?_⟩
  · rw [((only_named_variables p ⟨1, none⟩ s 6).1 t hagree).1]
    exact hrun
  · exact (only_named_variables p ⟨1, none⟩ t 6).2 "y"

end StackScript
