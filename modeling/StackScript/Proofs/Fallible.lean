/-!
# Computations that may fail

How a computation in `Except` that succeeded is taken apart into its steps: a sequence of two, and a
step for each item of a list. One that failed has a step that failed, and the steps before it succeeded.
-/

namespace StackScript
namespace Fallible

variable {ε α β : Type}

/-! ### Sequences -/

@[simp] theorem ok_bind (a : α) (f : α → Except ε β) : (Except.ok a >>= f) = f a := rfl

@[simp] theorem error_bind (e : ε) (f : α → Except ε β) : (Except.error e >>= f) = .error e := rfl

@[simp] theorem pure_eq_ok (a : α) : (pure a : Except ε α) = .ok a := rfl

@[simp] theorem throw_eq_error (e : ε) : (throw e : Except ε α) = .error e := rfl

/-- A sequence succeeds if its first step does and then the second. -/
theorem bind_eq_ok_iff {x : Except ε α} {f : α → Except ε β} {b : β} :
    x >>= f = .ok b ↔ ∃ a, x = .ok a ∧ f a = .ok b := by
  cases x with
  | ok a => simp
  | error e => simp

theorem bind_eq_error_iff {x : Except ε α} {f : α → Except ε β} {e : ε} :
    x >>= f = .error e ↔ x = .error e ∨ ∃ a, x = .ok a ∧ f a = .error e := by
  cases x with
  | ok a => simp
  | error e' => simp

theorem map_eq_ok_iff {x : Except ε α} {f : α → β} {b : β} :
    f <$> x = .ok b ↔ ∃ a, x = .ok a ∧ f a = b := by
  cases x with
  | ok a => simp [Functor.map, Except.map]
  | error e => simp [Functor.map, Except.map]

theorem map_eq_error_iff {x : Except ε α} {f : α → β} {e : ε} : f <$> x = .error e ↔ x = .error e := by
  cases x with
  | ok a => simp [Functor.map, Except.map]
  | error e' => simp [Functor.map, Except.map]

/-- What is not a success is a failure. -/
theorem exists_eq_error {x : Except ε α} (h : ∀ a, x ≠ .ok a) : ∃ e, x = .error e := by
  cases x with
  | ok a => exact absurd rfl (h a)
  | error e => exact ⟨e, rfl⟩

theorem mapError_ok {ε' : Type} (g : ε → ε') (a : α) : (Except.ok a : Except ε α).mapError g = .ok a := rfl

theorem mapError_eq_ok_iff {ε' : Type} {g : ε → ε'} {x : Except ε α} {a : α} :
    x.mapError g = .ok a ↔ x = .ok a := by
  cases x with
  | ok b =>
    show (Except.ok b : Except ε' α) = .ok a ↔ _
    simp
  | error e =>
    show (Except.error (g e) : Except ε' α) = .ok a ↔ _
    simp

theorem mapError_eq_error_iff {ε' : Type} {g : ε → ε'} {x : Except ε α} {e' : ε'} :
    x.mapError g = .error e' ↔ ∃ e, x = .error e ∧ g e = e' := by
  cases x with
  | ok b =>
    show (Except.ok b : Except ε' α) = .error e' ↔ _
    simp
  | error e =>
    show (Except.error (g e) : Except ε' α) = .error e' ↔ _
    simp

theorem toOption_eq_some_iff {x : Except ε α} {a : α} : x.toOption = some a ↔ x = .ok a := by
  cases x with
  | ok b => simp [Except.toOption]
  | error e => simp [Except.toOption]

/-! ### Lists -/

/-- Where each step has a condition `p` and an outcome `g`, so has a list of steps. -/
theorem mapM_eq_ok_iff {f : α → Except ε β} {p : α → Prop} {g : α → β}
    (h : ∀ a b, f a = .ok b ↔ p a ∧ b = g a) {l : List α} {r : List β} :
    l.mapM f = .ok r ↔ (∀ a ∈ l, p a) ∧ r = l.map g := by
  induction l generalizing r with
  | nil => simp [eq_comm]
  | cons a l ih =>
    rw [List.mapM_cons, bind_eq_ok_iff]
    simp only [bind_eq_ok_iff, h, ih, pure_eq_ok, Except.ok.injEq, List.mem_cons, forall_eq_or_imp, List.map_cons]
    constructor
    · rintro ⟨b, ⟨ha, rfl⟩, r', ⟨hl, rfl⟩, rfl⟩
      exact ⟨⟨ha, hl⟩, rfl⟩
    · rintro ⟨⟨ha, hl⟩, rfl⟩
      exact ⟨_, ⟨ha, rfl⟩, _, ⟨hl, rfl⟩, rfl⟩

/-- A list of steps fails with the first step that does. -/
theorem mapM_eq_error_iff {f : α → Except ε β} {l : List α} {e : ε} :
    l.mapM f = .error e ↔
      ∃ before a after, l = before ++ a :: after ∧ (∀ x ∈ before, ∃ b, f x = .ok b) ∧ f a = .error e := by
  induction l with
  | nil => simp
  | cons a l ih =>
    rw [List.mapM_cons, bind_eq_error_iff]
    simp only [bind_eq_error_iff, ih, pure_eq_ok, reduceCtorEq, and_false, exists_false, or_false]
    constructor
    · rintro (ha | ⟨b, hb, before, x, after, rfl, hbefore, hx⟩)
      · exact ⟨[], a, l, rfl, List.forall_mem_nil _, ha⟩
      · exact ⟨a :: before, x, after, rfl, List.forall_mem_cons.mpr ⟨⟨b, hb⟩, hbefore⟩, hx⟩
    · rintro ⟨before, x, after, hl, hbefore, hx⟩
      cases before with
      | nil =>
        obtain ⟨rfl, -⟩ := List.cons.inj hl
        exact .inl hx
      | cons y before =>
        obtain ⟨rfl, rfl⟩ := List.cons.inj hl
        obtain ⟨⟨b, hb⟩, hrest⟩ := List.forall_mem_cons.mp hbefore
        exact .inr ⟨b, hb, before, x, after, rfl, hrest, hx⟩

/-- Steps that pass a state on fail with the first step that does. -/
theorem foldlM_eq_error_iff {f : β → α → Except ε β} {l : List α} {b : β} {e : ε} :
    l.foldlM f b = .error e ↔
      ∃ before a after c, l = before ++ a :: after ∧ before.foldlM f b = .ok c ∧ f c a = .error e := by
  induction l generalizing b with
  | nil => simp
  | cons a l ih =>
    rw [List.foldlM_cons, bind_eq_error_iff]
    simp only [ih]
    constructor
    · rintro (ha | ⟨c, hc, before, x, after, d, rfl, hbefore, hx⟩)
      · exact ⟨[], a, l, b, rfl, rfl, ha⟩
      · refine ⟨a :: before, x, after, d, rfl, ?_, hx⟩
        rw [List.foldlM_cons, hc]
        exact hbefore
    · rintro ⟨before, x, after, d, hl, hbefore, hx⟩
      cases before with
      | nil =>
        obtain ⟨rfl, -⟩ := List.cons.inj hl
        cases hbefore
        exact .inl hx
      | cons y before =>
        obtain ⟨rfl, rfl⟩ := List.cons.inj hl
        rw [List.foldlM_cons] at hbefore
        obtain ⟨c, hc, hrest⟩ := bind_eq_ok_iff.mp hbefore
        exact .inr ⟨c, hc, before, x, after, d, rfl, hrest, hx⟩

end Fallible
end StackScript
