/-!
# Tables

A table maps names to entries. It is a list of bindings in strictly increasing order of names (by code
point), so a table is determined by its bindings and shows them in order. The view is `get?`: inserting
changes it at one name and nowhere else.
-/

namespace StackScript

/-- A finite map from names. -/
structure Table (α : Type) where
  /-- The bindings, in increasing order of names. -/
  toList : List (String × α)
  ordered : toList.Pairwise (fun a b => a.1 < b.1)
deriving DecidableEq

namespace Table

variable {α : Type}

instance : Inhabited (Table α) := ⟨⟨[], .nil⟩⟩

def empty : Table α := default

instance : EmptyCollection (Table α) := ⟨empty⟩

/-! ### Looking up -/

/-- The entry of the first binding of `name`. -/
def lookup (name : String) : List (String × α) → Option α
  | [] => none
  | (n, a) :: rest => if n = name then some a else lookup name rest

def get? (t : Table α) (name : String) : Option α := lookup name t.toList

/-- The names bound, in increasing order. -/
def names (t : Table α) : List String := t.toList.map (·.1)

/-! ### Inserting -/

/-- Binds `name` to `a`, at its place in an ordered list of bindings. -/
def put (name : String) (a : α) : List (String × α) → List (String × α)
  | [] => [(name, a)]
  | (n, b) :: rest =>
    if name < n then (name, a) :: (n, b) :: rest
    else if name = n then (name, a) :: rest
    else (n, b) :: put name a rest

theorem mem_put {name : String} {a : α} {x : String × α} {l : List (String × α)}
    (h : x ∈ put name a l) : x = (name, a) ∨ x ∈ l := by
  induction l with
  | nil => simpa [put] using h
  | cons y rest ih =>
    unfold put at h
    split at h
    · simpa using h
    · split at h
      · rcases List.mem_cons.mp h with h | h <;> simp [h]
      · rcases List.mem_cons.mp h with h | h
        · simp [h]
        · rcases ih h with h | h <;> simp [h]

theorem ordered_put (name : String) (a : α) {l : List (String × α)}
    (h : l.Pairwise (fun a b => a.1 < b.1)) :
    (put name a l).Pairwise (fun a b => a.1 < b.1) := by
  induction l with
  | nil => simp [put]
  | cons y rest ih =>
    obtain ⟨hy, hrest⟩ := List.pairwise_cons.mp h
    unfold put
    split
    · next hlt =>
      refine List.pairwise_cons.mpr ⟨fun x hx => ?_, h⟩
      rcases List.mem_cons.mp hx with rfl | hx
      · exact hlt
      · exact String.lt_trans hlt (hy x hx)
    · split
      · next heq => subst heq; exact List.pairwise_cons.mpr ⟨hy, hrest⟩
      · next hlt hne =>
        refine List.pairwise_cons.mpr ⟨fun x hx => ?_, ih hrest⟩
        rcases mem_put hx with rfl | hx
        · exact String.not_le.mp fun hle => hne (String.le_antisymm hle (String.not_lt.mp hlt))
        · exact hy x hx

/-- Binds `name` to `a`, in place of its former entry if there was one. -/
def insert (t : Table α) (name : String) (a : α) : Table α :=
  ⟨put name a t.toList, ordered_put name a t.ordered⟩

/-- Binds the names of a list in turn, so of two entries for one name the later stays. -/
def ofList (l : List (String × α)) : Table α :=
  l.foldl (fun t (name, a) => t.insert name a) empty

/-! ### The view after inserting -/

theorem lookup_put (name key : String) (a : α) (l : List (String × α)) :
    lookup key (put name a l) = if name = key then some a else lookup key l := by
  induction l with
  | nil => simp [put, lookup]
  | cons y rest ih => grind [put, lookup]

@[simp] theorem get?_empty (key : String) : (empty : Table α).get? key = none := rfl

theorem get?_insert (t : Table α) (name key : String) (a : α) :
    (t.insert name a).get? key = if name = key then some a else t.get? key :=
  lookup_put name key a t.toList

end Table
end StackScript
