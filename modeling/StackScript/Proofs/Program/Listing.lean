import StackScript.Proofs.Program.Banners
import StackScript.Proofs.Program.Text

/-!
# What a listing shows

A listing is a text of lines, and each line is a header, a banner or the row of an instruction. Only rows begin
with a digit, so the rows can be picked out (`filter_listing`). A row has its index, a mark, the script line and
the text of the instruction in this order, and neither a long index nor a long script line runs into what
follows (`eq_of_row_eq`). Main statement (`eq_of_listingText_eq`): compiled programs with the same listing are the
same program.
-/

namespace StackScript
namespace Program

/-! ### Lines of a text -/

/-- Lines without line feeds in them are known from the text that they make up. -/
theorem eq_of_flatMap_lineFeed_eq {xs ys : List (List Char)} (hxs : ∀ x ∈ xs, '\n' ∉ x)
    (hys : ∀ y ∈ ys, '\n' ∉ y) (h : xs.flatMap (· ++ ['\n']) = ys.flatMap (· ++ ['\n'])) : xs = ys := by
  induction xs generalizing ys with
  | nil =>
    cases ys with
    | nil => rfl
    | cons y ys => simp at h
  | cons x xs ih =>
    cases ys with
    | nil => simp at h
    | cons y ys =>
      obtain ⟨hx, hxs'⟩ := List.forall_mem_cons.mp hxs
      obtain ⟨hy, hys'⟩ := List.forall_mem_cons.mp hys
      have hlines : x ++ '\n' :: xs.flatMap (· ++ ['\n']) = y ++ '\n' :: ys.flatMap (· ++ ['\n']) := by
        simpa using h
      obtain ⟨hline, hrest⟩ := Text.eq_of_append_cons_eq hx hy hlines
      rw [hline, ih hxs' hys' hrest]

theorem toList_listingText (p : Program) :
    p.listingText.toList = (p.listing.map String.toList).flatMap (· ++ ['\n']) := by
  simp [listingText, String.toList_join, List.flatMap_map]

/-! ### Banners -/

/-- Every label in the table has the property. -/
def TableHolds (P : String → Prop) (table : Array (List String)) : Prop :=
  ∀ k : Nat, ∀ name ∈ table[k]?.getD [], P name

/-- The labels at an index are labels of jumps. -/
theorem tableHolds_targets {p : Program} {P : String → Prop} (h : ∀ i ∈ p.code, ∀ t ∈ i.target?, P t.label) :
    TableHolds P p.targets := by
  intro k name hname
  by_cases hk : k ≤ p.size
  · obtain ⟨i, hi, hgoes⟩ := ((labelsAt_targets p hk).mem_iff name).mp hname
    exact h i (Array.mem_toList_iff.mp hi) ⟨name, some k⟩ (by simpa [goesTo] using hgoes)
  · have hnone : p.targets[k]? = none := by
      rw [Array.getElem?_eq_none_iff, size_targets]
      omega
    simp [hnone] at hname

theorem no_lineFeed_joinLabels {labels : List String} (h : ∀ name ∈ labels, '\n' ∉ name.toList) :
    '\n' ∉ (joinLabels labels).toList := by
  unfold joinLabels
  induction labels with
  | nil => simp
  | cons name labels ih =>
    obtain ⟨hname, hlabels⟩ := List.forall_mem_cons.mp h
    cases labels with
    | nil => simpa using hname
    | cons name' labels =>
      rw [String.intercalate_cons_cons, String.toList_append, String.toList_append, List.mem_append,
        List.mem_append, not_or, not_or]
      exact ⟨⟨hname, by decide⟩, ih hlabels⟩

/-! ### Rows -/

theorem toList_row (p : Program) (k : Nat) (i : Instr) (marked : Bool) :
    (p.row k i marked).toList = (indexText k).toList ++ ' ' :: (if marked then '►' else ' ') :: ' ' :: 'L' ::
      (Nat.toDigits 10 (p.line k) ++ ' ' ::
        (List.replicate (4 - (toString (p.line k)).length) ' ' ++ i.text.toList)) := by
  have hmark : (if marked then "►" else " ").toList = [if marked then '►' else ' '] := by
    cases marked <;> rfl
  have hpad : ∀ n (cs : List Char), List.replicate n ' ' ++ ' ' :: cs = ' ' :: (List.replicate n ' ' ++ cs) := by
    intro n cs
    rw [← List.singleton_append, ← List.append_assoc, ← List.replicate_succ', List.replicate_succ, List.cons_append]
  simp [row, padRight, hmark, hpad]

/-- The script line and the instruction of a row are known from the row. -/
theorem eq_of_row_eq {p q : Program} {k : Nat} {i j : Instr} {marked marked' : Bool}
    (h : p.row k i marked = q.row k j marked') : p.line k = q.line k ∧ i.text = j.text := by
  have hchars := congrArg String.toList h
  rw [toList_row, toList_row] at hchars
  -- The index is the same and the mark is one character, so the script lines stand at the same place.
  have hrest := (List.cons.inj (List.append_cancel_left hchars)).2
  have hlines := (List.cons.inj (List.cons.inj (List.cons.inj hrest).2).2).2
  have hblank : ∀ n, ' ' ∉ Nat.toDigits 10 n := fun n hmem =>
    absurd (Nat.isDigit_of_mem_toDigits (by decide) (by decide) hmem) (by decide)
  obtain ⟨hdigits, htext⟩ := Text.eq_of_append_cons_eq (hblank _) (hblank _) hlines
  have hline : p.line k = q.line k := by
    rw [← Decimal.ofDigits_toDigits (p.line k), hdigits, Decimal.ofDigits_toDigits]
  rw [hline] at htext
  exact ⟨hline, String.toList_inj.mp (List.append_cancel_left htext)⟩

/-- Whether a line of a listing is the row of an instruction. -/
def isRow (line : String) : Bool := line.toList.head?.any Char.isDigit

theorem isRow_row (p : Program) (k : Nat) (i : Instr) (marked : Bool) : isRow (p.row k i marked) = true := by
  have hne : Decimal.padLeft 4 (Nat.toDigits 10 k) ≠ [] := by
    intro hnil
    have hlength := Decimal.le_length_padLeft 4 (Nat.toDigits 10 k)
    rw [hnil] at hlength
    exact absurd hlength (by decide)
  obtain ⟨c, cs, hcons⟩ := List.exists_cons_of_ne_nil hne
  have hdigit : c.isDigit = true := Decimal.isDigit_of_mem_padLeft (by rw [hcons]; exact List.mem_cons_self)
  unfold isRow
  rw [toList_row, toList_indexText, hcons]
  exact hdigit

theorem filter_rows (p : Program) (table : Array (List String)) (k : Nat) (i : Instr) :
    (p.rows table k i).filter isRow = [p.row k i (!(table[k]?.getD []).isEmpty)] := by
  unfold rows
  split
  · next hlabels => simp [hlabels, isRow_row]
  · next labels hne =>
    have hbanner : ∀ s : String, isRow ("      ┌─ " ++ s ++ ":") = false := fun s => by simp [isRow]
    have hlabels : (table[k]?.getD []).isEmpty = false := by simpa using hne
    simp [hbanner, isRow_row, hlabels]

/-- The rows of a listing are those of the instructions, in order. -/
theorem filter_listing (p : Program) :
    p.listing.filter isRow =
      p.code.toList.zipIdx.map fun (i, k) => p.row k i (!(p.targets[k]?.getD []).isEmpty) := by
  have hheader : ["=== MICROSCRIPT STREAM ===", " " ++ toString p.size ++ " instructions",
      "════════════════════════════════════════"].filter isRow = [] := by
    simp [isRow]
  have hclosing : (p.closing p.targets).filter isRow = [] := by
    unfold closing
    split
    · rfl
    · simp [isRow]
  unfold listing
  simp only [List.filter_append, hheader, hclosing, List.filter_flatMap, filter_rows, List.nil_append, List.append_nil]
  exact List.map_eq_flatMap.symm

/-! ### Legible programs -/

/-- The instructions can be read from their texts, and there is a script line for each. -/
structure Legible (p : Program) : Prop where
  code : ∀ i ∈ p.code, i.Legible
  lines : p.lines.size = p.size

theorem legible_of_compile {script : String} {p : Program} (h : Program.compile .standard script = .ok p) :
    p.Legible where
  code _ hi := legible_of_mem_code h hi
  lines := size_lines_of_compile h

theorem Legible.no_lineFeed_label {p : Program} (h : p.Legible) :
    TableHolds (fun name => '\n' ∉ name.toList) p.targets := by
  apply tableHolds_targets
  intro i hi t ht
  have hlegible := h.code i hi
  cases i with
  | jump condition t' =>
    cases ht
    exact not_mem_of_identifier hlegible (by decide)
  | _ => cases ht

theorem no_lineFeed_row {p : Program} {i : Instr} (hi : i.Legible) (k : Nat) (marked : Bool) :
    '\n' ∉ (p.row k i marked).toList := by
  have hindex := no_lineFeed_indexText k
  have hdigits : '\n' ∉ Nat.toDigits 10 (p.line k) :=
    no_lineFeed_of_isDigit fun c => Nat.isDigit_of_mem_toDigits (by decide) (by decide)
  have htext : '\n' ∉ i.text.toList := Instr.Legible.no_lineFeed hi
  rw [toList_row]
  cases marked <;> simp [hindex, hdigits, htext]

theorem no_lineFeed_rows {p : Program} {table : Array (List String)}
    (htable : TableHolds (fun name => '\n' ∉ name.toList) table) {i : Instr} (hi : i.Legible) (k : Nat) :
    ∀ line ∈ p.rows table k i, '\n' ∉ line.toList := by
  have hjoin := no_lineFeed_joinLabels (htable k)
  unfold rows
  split
  · simpa using no_lineFeed_row hi k false
  · simpa using ⟨hjoin, no_lineFeed_row hi k true⟩

theorem no_lineFeed_closing {p : Program} {table : Array (List String)}
    (htable : TableHolds (fun name => '\n' ∉ name.toList) table) :
    ∀ line ∈ p.closing table, '\n' ∉ line.toList := by
  have hjoin := no_lineFeed_joinLabels (htable p.size)
  unfold closing
  split
  · exact List.forall_mem_nil _
  · simpa using hjoin

/-- Every line of the listing of a legible program stands on one line. -/
theorem Legible.no_lineFeed {p : Program} (h : p.Legible) : ∀ line ∈ p.listing, '\n' ∉ line.toList := by
  have htable := h.no_lineFeed_label
  have hsize : '\n' ∉ Nat.toDigits 10 p.size :=
    no_lineFeed_of_isDigit fun c => Nat.isDigit_of_mem_toDigits (by decide) (by decide)
  unfold listing
  simp only [List.forall_mem_append, List.mem_flatMap]
  refine ⟨⟨by simp [hsize], ?_⟩, no_lineFeed_closing htable⟩
  rintro line ⟨⟨i, k⟩, hik, hline⟩
  have hi : i.Legible := h.code i (Array.mem_toList_iff.mp (List.fst_mem_of_mem_zipIdx hik))
  exact no_lineFeed_rows htable hi k line hline

/-- A legible program is known from its listing. -/
theorem Legible.eq_of_listing_eq {p q : Program} (hp : p.Legible) (hq : q.Legible) (h : p.listing = q.listing) :
    p = q := by
  have hrows : ∀ k, p.code[k]?.map (fun i => p.row k i (!(p.targets[k]?.getD []).isEmpty)) =
      q.code[k]?.map (fun i => q.row k i (!(q.targets[k]?.getD []).isEmpty)) := by
    intro k
    have hk := congrArg (fun rows => (rows.filter isRow)[k]?) h
    simpa [filter_listing, List.getElem?_zipIdx, Function.comp_def] using hk
  have hcode : ∀ k, p.code[k]? = q.code[k]? ∧ (k < p.size → p.line k = q.line k) := by
    intro k
    have hk := hrows k
    cases hi : p.code[k]? with
    | none =>
      cases hj : q.code[k]? with
      | none => exact ⟨rfl, fun hlt => absurd (Array.getElem?_eq_none_iff.mp hi) (Nat.not_le.mpr hlt)⟩
      | some j => simp [hi, hj] at hk
    | some i =>
      cases hj : q.code[k]? with
      | none => simp [hi, hj] at hk
      | some j =>
        rw [hi, hj] at hk
        obtain ⟨hline, htext⟩ := eq_of_row_eq (Option.some.inj hk)
        have hij := Instr.text_injective (hp.code i (Array.mem_of_getElem? hi)) (hq.code j (Array.mem_of_getElem? hj)) htext
        exact ⟨by rw [hij], fun _ => hline⟩
  have hsame : p.code = q.code := Array.ext_getElem? fun k => (hcode k).1
  have hsize : p.size = q.size := congrArg Array.size hsame
  have hlines : p.lines = q.lines := by
    refine Array.ext (by rw [hp.lines, hq.lines, hsize]) fun k hk hk' => ?_
    have hline := (hcode k).2 (hp.lines ▸ hk)
    simpa [line, line?, hk, hk'] using hline
  cases p
  cases q
  cases hsame
  cases hlines
  rfl

/-- Two compiled programs with the same listing are the same program: the same code, with operands, labels and
positions, and the same script lines. -/
theorem eq_of_listingText_eq {script script' : String} {p q : Program}
    (hp : Program.compile .standard script = .ok p) (hq : Program.compile .standard script' = .ok q)
    (h : p.listingText = q.listingText) : p = q := by
  have hlegible := legible_of_compile hp
  have hlegible' := legible_of_compile hq
  apply hlegible.eq_of_listing_eq hlegible'
  have htext := congrArg String.toList h
  rw [toList_listingText, toList_listingText] at htext
  have hlines := eq_of_flatMap_lineFeed_eq (by simpa using hlegible.no_lineFeed) (by simpa using hlegible'.no_lineFeed) htext
  exact List.map_injective_iff.mpr (fun _ _ => String.toList_inj.mp) hlines

/-- Two scripts that spell a number and a string with a comma in it in different ways, with jumps back and to the
end. -/
theorem eq_of_listingText_eq_two_scripts :
    ∃ p q, Program.compile .standard "top: cmp #\"a, b\", $x // text\njne top\ncmp y, #1.50\nje end\nend:" = .ok p ∧
      Program.compile .standard "  top:cmp#\"a, b\" ,$x\r\njne top\ncmp y,#01.5\nje end // leave\nend:\n" = .ok q ∧
      p.listingText = "=== MICROSCRIPT STREAM ===\n 4 instructions\n════════════════════════════════════════\n" ++
        "      ┌─ top:\n0000 ► L1    cmp #\"a, b\", $x\n0001   L2    jne top (@0000)\n" ++
        "0002   L3    cmp y, #1.5\n0003   L4    je end (@0004)\n      └─ end: (end)\n" ∧
      p.listingText = q.listingText ∧ p = q := by
  let p : Program :=
    ⟨#[.compare (.immediate (.string "a, b")) (.register "x"), .jump .truthy ⟨"top", some 0⟩,
        .compare (.direct "y") (.immediate (.number ⟨0x3ff8000000000000⟩)), .jump .falsy ⟨"end", some 4⟩],
      #[1, 2, 3, 4]⟩
  have hp : Program.compile .standard "top: cmp #\"a, b\", $x // text\njne top\ncmp y, #1.50\nje end\nend:" = .ok p :=
    Fallible.toOption_eq_some_iff.mp (by decide +kernel)
  have hq : Program.compile .standard
      "  top:cmp#\"a, b\" ,$x\r\njne top\ncmp y,#01.5\nje end // leave\nend:\n" = .ok p :=
    Fallible.toOption_eq_some_iff.mp (by decide +kernel)
  exact ⟨p, p, hp, hq, by decide +kernel, rfl, eq_of_listingText_eq hp hq rfl⟩

end Program
end StackScript
