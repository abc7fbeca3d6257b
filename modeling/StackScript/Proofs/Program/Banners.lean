import StackScript.Program.Listing

/-!
# Banners of a listing

The labels at an index are collected in one pass over the code. After each instruction the labels found so
far are those of the jumps so far, each once and in the order of their first jumps (`Collected`); an instruction
adds its label at one index (`Collected.addTarget`) or nowhere (`Collected.snoc`). Main statement
(`listing_marks_targets`): the instructions that jumps go to are marked and have a banner with these labels above
them, the end of the program has one if jumps go there, and there is no other banner.
-/

namespace StackScript
namespace Program

variable {code : List Instr} {k : Nat} {labels : List String} {i : Instr} {name : String}

/-! ### Jumps to an index -/

/-- The instruction is a jump to the index `k` with this label. -/
def goesTo (k : Nat) (name : String) (i : Instr) : Bool := i.target? = some ⟨name, some k⟩

/-- The index of the first jump to `k` with this label, if there is one. -/
def firstJump (code : List Instr) (k : Nat) (name : String) : Nat := code.findIdx (goesTo k name)

/-- The labels of the jumps to an index: all of them, in the order of their first jumps, and so none
of them twice. -/
structure LabelsAt (code : List Instr) (k : Nat) (labels : List String) : Prop where
  mem_iff : ∀ name, name ∈ labels ↔ ∃ i ∈ code, goesTo k name i = true
  ordered : labels.Pairwise fun a b => firstJump code k a < firstJump code k b

theorem firstJump_lt_length (h : ∃ i ∈ code, goesTo k name i = true) : firstJump code k name < code.length :=
  List.findIdx_lt_length_of_exists h

/-- More code does not change where a label comes first. -/
theorem firstJump_append (h : ∃ i ∈ code, goesTo k name i = true) (more : List Instr) :
    firstJump (code ++ more) k name = firstJump code k name := by
  have hlt := firstJump_lt_length h
  unfold firstJump at hlt ⊢
  rw [List.findIdx_append, if_pos hlt]

theorem labelsAt_nil (k : Nat) : LabelsAt [] k [] where
  mem_iff name := by simp
  ordered := .nil

/-! ### One more instruction -/

namespace LabelsAt

/-- The labels found so far stay in their order. -/
theorem ordered_append (h : LabelsAt code k labels) (more : List Instr) :
    labels.Pairwise fun a b => firstJump (code ++ more) k a < firstJump (code ++ more) k b := by
  apply h.ordered.imp_of_mem
  intro a b ha hb hab
  rw [firstJump_append ((h.mem_iff a).mp ha), firstJump_append ((h.mem_iff b).mp hb)]
  exact hab

/-- An instruction that does not bring a new label changes nothing. -/
theorem snoc (h : LabelsAt code k labels) (hi : ∀ name, goesTo k name i = true → name ∈ labels) :
    LabelsAt (code ++ [i]) k labels where
  mem_iff name := by
    have hmem := h.mem_iff name
    have hnew := hi name
    grind
  ordered := h.ordered_append [i]

/-- A new label comes last, for its first jump is the last instruction. -/
theorem snoc_new (h : LabelsAt code k labels) (hi : i.target? = some ⟨name, some k⟩) (hname : name ∉ labels) :
    LabelsAt (code ++ [i]) k (labels ++ [name]) where
  mem_iff name' := by
    have hmem := h.mem_iff name'
    have hgoes : goesTo k name' i = true ↔ name' = name := by simp [goesTo, hi, eq_comm]
    grind
  ordered := by
    apply List.pairwise_append.mpr
    refine ⟨h.ordered_append [i], List.pairwise_singleton _ _, ?_⟩
    intro a ha b hb
    have ha' := (h.mem_iff a).mp ha
    have hlast : firstJump (code ++ [i]) k name = code.length := by
      have hnone : ¬code.findIdx (goesTo k name) < code.length := by
        intro hlt
        exact hname ((h.mem_iff name).mpr (List.findIdx_lt_length.mp hlt))
      unfold firstJump
      rw [List.findIdx_append, if_neg hnone]
      simp [goesTo, hi]
    rw [List.mem_singleton.mp hb, firstJump_append ha', hlast]
    exact firstJump_lt_length ha'

theorem nodup (h : LabelsAt code k labels) : labels.Nodup := by
  apply h.ordered.imp
  intro a b hab heq
  rw [heq] at hab
  exact Nat.lt_irrefl _ hab

/-- There are labels exactly if some jump goes to the index. -/
theorem ne_nil_iff (h : LabelsAt code k labels) :
    labels ≠ [] ↔ ∃ i ∈ code, ∃ t, i.target? = some t ∧ t.position = some k := by
  constructor
  · intro hne
    obtain ⟨name, hname⟩ := List.exists_mem_of_ne_nil labels hne
    obtain ⟨i, hi, hgoes⟩ := (h.mem_iff name).mp hname
    exact ⟨i, hi, ⟨name, some k⟩, by simpa [goesTo] using hgoes, rfl⟩
  · intro ⟨i, hi, ⟨name, position⟩, htarget, hposition⟩
    have hgoes : goesTo k name i = true := by simpa [goesTo, htarget] using hposition
    exact List.ne_nil_of_mem ((h.mem_iff name).mpr ⟨i, hi, hgoes⟩)

end LabelsAt

/-! ### The pass over the code -/

/-- The table has the labels of the jumps in `code`, for every index that it has. -/
def Collected (code : List Instr) (table : Array (List String)) : Prop :=
  ∀ k labels, table[k]? = some labels → LabelsAt code k labels

theorem collected_replicate (n : Nat) : Collected [] (Array.replicate n []) := by
  intro k labels hlabels
  rw [Array.getElem?_replicate] at hlabels
  split at hlabels
  · cases hlabels
    exact labelsAt_nil k
  · cases hlabels

namespace Collected

variable {table : Array (List String)}

/-- An instruction without a position, which is no jump or is not resolved, adds nothing. -/
theorem snoc (h : Collected code table) (hi : ∀ t ∈ i.target?, t.position = none) : Collected (code ++ [i]) table := by
  intro k labels hlabels
  apply (h k labels hlabels).snoc
  intro name hgoes
  have htarget : i.target? = some ⟨name, some k⟩ := by simpa [goesTo] using hgoes
  cases hi _ htarget

/-- A jump adds its label at its position, unless it is there or the table does not go so far. -/
theorem addTarget (h : Collected code table) {t : Target} (hi : i.target? = some t) :
    Collected (code ++ [i]) (Program.addTarget table t) := by
  obtain ⟨name, _ | position⟩ := t
  · exact h.snoc (by simp [hi])
  · intro k labels hlabels
    simp only [Program.addTarget, Array.getElem?_modify] at hlabels
    split at hlabels
    · next heq =>
      subst heq
      obtain ⟨before, hbefore, rfl⟩ := Option.map_eq_some_iff.mp hlabels
      have hk := h position before hbefore
      split
      · next hmem =>
        apply hk.snoc
        intro name' hgoes
        have hname : name = name' := by simpa [goesTo, hi] using hgoes
        exact hname ▸ hmem
      · next hmem => exact hk.snoc_new hi hmem
    · next hne =>
      apply (h k labels hlabels).snoc
      intro name' hgoes
      have hsame : name = name' ∧ position = k := by simpa [goesTo, hi] using hgoes
      exact absurd hsame.2 hne

/-- The whole pass. -/
theorem foldl (h : Collected code table) (more : List Instr) :
    Collected (code ++ more) ((more.filterMap Instr.target?).foldl Program.addTarget table) := by
  induction more generalizing code table with
  | nil => simpa using h
  | cons i more ih =>
    have hsplit : code ++ i :: more = (code ++ [i]) ++ more := by simp
    rw [hsplit]
    cases hi : i.target? with
    | none =>
      rw [List.filterMap_cons_none hi]
      exact ih (h.snoc (by simp [hi]))
    | some t =>
      rw [List.filterMap_cons_some hi, List.foldl_cons]
      exact ih (h.addTarget hi)

end Collected

theorem size_targets (p : Program) : p.targets.size = p.size + 1 := by
  have hsize : ∀ (ts : List Target) (table : Array (List String)), (ts.foldl addTarget table).size = table.size := by
    intro ts
    induction ts with
    | nil => exact fun _ => rfl
    | cons t ts ih =>
      intro table
      rw [List.foldl_cons, ih]
      unfold addTarget
      split
      · exact Array.size_modify
      · rfl
  unfold targets
  rw [hsize, Array.size_replicate]

/-- The table of a program has the labels for every index up to its size. -/
theorem labelsAt_targets (p : Program) {k : Nat} (hk : k ≤ p.size) :
    LabelsAt p.code.toList k (p.targets[k]?.getD []) := by
  have hcollected : Collected ([] ++ p.code.toList) p.targets := (collected_replicate (p.size + 1)).foldl p.code.toList
  have hlt : k < p.targets.size := by
    rw [size_targets]
    omega
  apply hcollected k
  rw [Array.getElem?_eq_getElem hlt]
  rfl

/-! ### The lines of a listing -/

/-- A banner, if there are labels to show in it. -/
def banner (start : String) (labels : List String) (stop : String) : List String :=
  if labels = [] then [] else [start ++ ", ".intercalate labels ++ stop]

/-- The lines of a listing with given labels at each index: the header, then for every instruction in order its
banner and its row, with a mark where there is a banner, and the banner of the end. In a row, the index has at least
four digits and the script line takes at least four places. -/
def listingWith (p : Program) (labels : Nat → List String) : List String :=
  ["=== MICROSCRIPT STREAM ===", " " ++ toString p.size ++ " instructions",
      "════════════════════════════════════════"] ++
    p.code.toList.zipIdx.flatMap (fun (i, k) =>
      let digits := Nat.toDigits 10 k
      let line := toString (p.lines[k]?.getD 0)
      banner "      ┌─ " (labels k) ":" ++
        [String.ofList (List.replicate (4 - digits.length) '0' ++ digits) ++ " " ++
          (if labels k = [] then " " else "►") ++ " L" ++
          (line ++ String.ofList (List.replicate (4 - line.length) ' ')) ++ " " ++ i.text]) ++
    banner "      └─ " (labels p.size) ": (end)"

theorem rows_eq (p : Program) (table : Array (List String)) (k : Nat) (i : Instr) :
    p.rows table k i =
      banner "      ┌─ " (table[k]?.getD []) ":" ++ [p.row k i (decide (table[k]?.getD [] ≠ []))] := by
  unfold rows banner
  split
  · next hlabels => simp [hlabels]
  · next hlabels =>
    have hne : table[k]?.getD [] ≠ [] := by simpa using hlabels
    simp [hne, joinLabels]

theorem closing_eq (p : Program) (table : Array (List String)) :
    p.closing table = banner "      └─ " (table[p.size]?.getD []) ": (end)" := by
  unfold closing banner
  split
  · next hlabels => simp [hlabels]
  · next hlabels =>
    have hne : table[p.size]?.getD [] ≠ [] := by simpa using hlabels
    simp [hne, joinLabels]

theorem listing_eq (p : Program) : p.listing = p.listingWith fun k => p.targets[k]?.getD [] := by
  unfold listing listingWith
  simp [rows_eq, closing_eq, row, line, line?, indexText, Decimal.padLeft, padRight]

/-- Labels beyond the end are not shown. -/
theorem listingWith_congr (p : Program) {labels labels' : Nat → List String}
    (h : ∀ k ≤ p.size, labels k = labels' k) : p.listingWith labels = p.listingWith labels' := by
  have hrow : ∀ x ∈ p.code.toList.zipIdx, labels x.2 = labels' x.2 := by
    intro ⟨i, k⟩ hx
    have hlt : k < p.code.size := by simpa using List.snd_lt_of_mem_zipIdx hx
    exact h k (Nat.le_of_lt hlt)
  unfold listingWith
  rw [h p.size (Nat.le_refl _)]
  congr 2
  rw [List.flatMap_def, List.flatMap_def]
  apply congrArg List.flatten
  apply List.map_congr_left
  intro ⟨i, k⟩ hx
  simp only [hrow ⟨i, k⟩ hx]

/-- A listing has a row for every instruction, in order, with its index, its script line and its text. The row
is marked and has a banner above it exactly if a jump goes to the instruction, and there is a closing banner
exactly if a jump goes to the end; a banner has the labels of these jumps, each once, in the order of their
first jumps. Jumps that are not resolved or go beyond the end bring no banner. -/
theorem listing_marks_targets (p : Program) :
    ∃ labels : Nat → List String,
      (∀ k ≤ p.size, LabelsAt p.code.toList k (labels k) ∧ (labels k).Nodup ∧
        (labels k ≠ [] ↔ ∃ i ∈ p.code, ∃ t, i.target? = some t ∧ t.position = some k)) ∧
      p.listingText = String.join ((p.listingWith labels).map (· ++ "\n")) ∧
      ((∀ i ∈ p.code, ∀ t, i.target? = some t → ∀ k, t.position = some k → p.size < k) →
        p.listingText = String.join ((p.listingWith fun _ => []).map (· ++ "\n"))) := by
  have hat : ∀ k ≤ p.size, p.targets[k]?.getD [] ≠ [] ↔
      ∃ i ∈ p.code, ∃ t, i.target? = some t ∧ t.position = some k := by
    intro k hk
    simpa using (labelsAt_targets p hk).ne_nil_iff
  refine ⟨fun k => p.targets[k]?.getD [], ?_, ?_, ?_⟩
  · intro k hk
    have hlabels := labelsAt_targets p hk
    exact ⟨hlabels, hlabels.nodup, hat k hk⟩
  · rw [← listing_eq]
    rfl
  · intro hbeyond
    have hnone : ∀ k ≤ p.size, p.targets[k]?.getD [] = [] := by
      intro k hk
      apply Classical.byContradiction
      intro hne
      obtain ⟨i, hi, t, ht, hposition⟩ := (hat k hk).mp hne
      exact absurd (hbeyond i hi t ht k hposition) (Nat.not_lt.mpr hk)
    rw [← listingWith_congr p hnone, ← listing_eq]
    rfl

/-- Two labels at one index, one of them also at the end, and jumps that have no banner. -/
example :
    listing ⟨#[.jump .always ⟨"b", some 1⟩, .jump .truthy ⟨"a", some 1⟩, .jump .falsy ⟨"b", some 1⟩,
        .jump .always ⟨"a", some 5⟩, .jump .always ⟨"c", some 9⟩], #[7, 8]⟩ =
      ["=== MICROSCRIPT STREAM ===", " 5 instructions", "════════════════════════════════════════",
        "0000   L7    jmp b (@0001)", "      ┌─ b, a:", "0001 ► L8    jne a (@0001)", "0002   L0    je b (@0001)",
        "0003   L0    jmp a (@0005)", "0004   L0    jmp c (@0009)", "      └─ a: (end)"] := by
  decide +kernel

end Program
end StackScript
