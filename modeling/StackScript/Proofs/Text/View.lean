import StackScript.Proofs.Text.Scan
import StackScript.Text.Cursor

/-!
# What the consumers show

A cursor between two characters of a text stands before some end of it, and a consumer does there what the scanner of
the same name does on this end (`Shows`): both succeed or fail alike, with the same item and the same count, and the
consumer moves its cursor before what the scanner leaves. In particular no consumer ever cuts a text inside a
character, or behind its end, and so none of them is aborted.

The statement is proved for the primitives by what they cut, and for all others by following their steps
(`Shows.bind_reads`).
-/

namespace StackScript
namespace Cursor

open Text Fallible

variable {α β γ : Type} {text cs w rest : List Char}

/-! ### Cursors before an end of the text -/

/-- The place in a text before its end `cs`. -/
def before (text cs : List Char) : Cursor := ⟨text, byteSize text - byteSize cs⟩

@[simp] theorem before_self : before text text = start text := by
  rw [before, Nat.sub_self, start]

theorem before_pos_of_split (h : text = w ++ rest) : (before text rest).pos = byteSize w := by
  rw [before, h, byteSize_append, Nat.add_sub_cancel]

theorem before_pos_append (h : w ++ rest <:+ text) :
    (before text rest).pos = (before text (w ++ rest)).pos + byteSize w := by
  obtain ⟨front, rfl⟩ := h
  rw [before_pos_of_split (List.append_assoc front w rest).symm, before_pos_of_split rfl, byteSize_append]

theorem remaining?_before (h : cs <:+ text) : (before text cs).remaining? = some cs := by
  obtain ⟨front, rfl⟩ := h
  rw [remaining?, before_pos_of_split rfl]
  exact sliceFrom?_append front cs

theorem since?_before (h : cs <:+ text) (hsplit : cs = w ++ rest) :
    (before text rest).since? (before text cs) = some w := by
  subst hsplit
  obtain ⟨front, rfl⟩ := id h
  rw [since?, before_pos_append h, before_pos_of_split rfl]
  exact slice?_append front w rest

theorem atEnd_before (h : cs <:+ text) : (before text cs).atEnd = true ↔ cs = [] := by
  have hle := byteSize_le_of_suffix h
  rw [atEnd, decide_eq_true_iff, ← byteSize_eq_zero_iff]
  show byteSize text ≤ byteSize text - byteSize cs ↔ _
  omega

/-! ### The statement and its steps -/

/-- What a scanner found, with the cursor before what it left. -/
def moved (text : List Char) (s : Scan.Scanned α) : Scanned α := ⟨s.value, s.count, before text s.rest⟩

@[simp] theorem moved_value (s : Scan.Scanned α) : (moved text s).value = s.value := rfl

@[simp] theorem moved_rest (s : Scan.Scanned α) : (moved text s).rest = before text s.rest := rfl

/-- A consumer does before an end of a text what a scanner does on this end. -/
structure Shows (consume : Consumer α) (scan : Scanner α) : Prop where
  suffix : ∀ {cs s}, scan cs = .ok s → s.rest <:+ cs
  reads : ∀ {text cs}, cs <:+ text → (consume (before text cs)).run = some ((scan cs).map (moved text))

/-- A cut that succeeds goes on with what it cut out. -/
theorem run_lift_bind {o : Option α} {a : α} (h : o = some a) (f : α → Reading β) :
    ((liftM o : Reading α) >>= f).run = (f a).run := by
  subst h
  rfl

theorem run_ok_bind {x : Reading α} {a : α} (h : x.run = some (.ok a)) (f : α → Reading β) :
    (x >>= f).run = (f a).run := by
  show (x.run >>= ExceptT.bindCont f) = _
  rw [h]
  rfl

theorem run_error_bind {x : Reading α} {e : Scan.Error} (h : x.run = some (.error e)) (f : α → Reading β) :
    (x >>= f).run = some (.error e) := by
  show (x.run >>= ExceptT.bindCont f) = _
  rw [h]
  rfl

theorem run_adapt {x : Reading α} {y : Except Scan.Error α} (h : x.run = some y) (f : Scan.Error → Scan.Error) :
    (x.adapt f).run = some (y.mapError f) := by
  show Except.mapError f <$> x.run = _
  rw [h]
  rfl

/-- Two readings that do the same in their first step and then in the second do the same. -/
theorem run_bind {δ : Type} {x : Reading α} {y : Except Scan.Error γ} {φ : γ → α} {ψ : δ → β}
    (hx : x.run = some (y.map φ)) {f : α → Reading β} {g : γ → Except Scan.Error δ}
    (hf : ∀ s, y = .ok s → (f (φ s)).run = some ((g s).map ψ)) : (x >>= f).run = some ((y >>= g).map ψ) := by
  cases y with
  | ok s => exact (run_ok_bind hx f).trans (hf s rfl)
  | error e => exact run_error_bind hx f

/-- The step from one consumer to the next. -/
theorem Shows.bind_reads {consume : Consumer α} {scan : Scanner α} (h : Shows consume scan) (hcs : cs <:+ text)
    {δ : Type} {ψ : δ → β} {f : Scanned α → Reading β} {g : Scan.Scanned α → Except Scan.Error δ}
    (hf : ∀ s, scan cs = .ok s → s.rest <:+ text → (f (moved text s)).run = some ((g s).map ψ)) :
    (consume (before text cs) >>= f).run = some ((scan cs >>= g).map ψ) :=
  run_bind (h.reads hcs) fun s hs => hf s hs ((h.suffix hs).trans hcs)

theorem Shows.run_eq_ok_iff {consume : Consumer α} {scan : Scanner α} (h : Shows consume scan) (hcs : cs <:+ text)
    {s : Scanned α} : (consume (before text cs)).run = some (.ok s) ↔ ∃ s', scan cs = .ok s' ∧ moved text s' = s := by
  rw [h.reads hcs, Option.some.injEq]
  exact map_eq_ok_iff

/-! ### Primitives -/

theorem measure_eq (p : Char → Bool) (cs : List Char) (count len : Nat) :
    measure p cs count len = (count + (cs.takeWhile p).length, len + byteSize (cs.takeWhile p)) := by
  induction cs generalizing count len with
  | nil => rfl
  | cons c cs ih =>
    rw [measure, List.takeWhile_cons]
    cases hc : p c with
    | false => rfl
    | true =>
      simp only [if_true, ih, List.length_cons, byteSize, Prod.mk.injEq]
      omega

theorem take_before (h : cs <:+ text) (hsplit : cs = w ++ rest) (n : Nat) :
    (take (before text cs) cs n (byteSize w)).run = some (.ok ⟨w, n, before text rest⟩) := by
  subst hsplit
  have hmoved : ({ before text (w ++ rest) with pos := (before text (w ++ rest)).pos + byteSize w } : Cursor) =
      before text rest := by
    rw [← before_pos_append h]
    rfl
  rw [take, run_lift_bind (sliceTo?_append w rest), hmoved]
  rfl

theorem shows_run (p : Char → Bool) (least : Nat) (most : Option Nat) : Shows (run p least most) (Scan.run p least most) where
  suffix := by
    intro cs s hs
    obtain ⟨hrun, -⟩ := Scan.run_eq_ok_iff.mp hs
    exact ⟨_, hrun.split.symm⟩
  reads := by
    intro text cs h
    have htake : (take (before text cs) cs (cs.takeWhile p).length (byteSize (cs.takeWhile p))).run =
        some (.ok (moved text ⟨cs.takeWhile p, (cs.takeWhile p).length, cs.dropWhile p⟩)) :=
      take_before h List.takeWhile_append_dropWhile.symm _
    rw [run, run_lift_bind (remaining?_before h), measure_eq, Nat.zero_add, Nat.zero_add]
    unfold Scan.run
    simp only
    split
    · rfl
    · cases most with
      | none => exact htake
      | some most =>
        simp only
        split
        · rfl
        · exact htake

theorem shows_atLeast (least : Nat) (p : Char → Bool) : Shows (atLeast least p) (Scan.atLeast least p) :=
  shows_run p least none

/-- A single character, which is handed back as a text. -/
theorem one_before (p : Char → Bool) (h : cs <:+ text) :
    (one p (before text cs)).run =
      some ((Scan.one p cs).map fun s => ⟨[s.value], s.count, before text s.rest⟩) := by
  rw [one, run_lift_bind (remaining?_before h)]
  cases cs with
  | nil => rfl
  | cons c cs =>
    unfold Scan.one
    cases hc : p c with
    | false =>
      simp only [List.head?_cons, Option.filter_some, hc, Bool.false_eq_true, if_false]
      rfl
    | true =>
      have hsplit : c :: cs = [c] ++ cs := rfl
      simp only [List.head?_cons, Option.filter_some, hc, if_true]
      exact take_before h hsplit 1

theorem suffix_of_one {p : Char → Bool} {s : Scan.Scanned Char} (hs : Scan.one p cs = .ok s) : s.rest <:+ cs := by
  obtain ⟨hcs, -⟩ := Scan.one_eq_ok_iff.mp hs
  exact ⟨[s.value], hcs.symm⟩

theorem shows_one (p : Char → Bool) :
    Shows (one p) fun cs => (Scan.one p cs).map fun s => ⟨[s.value], s.count, s.rest⟩ where
  suffix := by
    intro cs s hs
    obtain ⟨s, hone, rfl⟩ := map_eq_ok_iff.mp hs
    exact suffix_of_one hone
  reads := by
    intro text cs h
    rw [one_before p h]
    cases Scan.one p cs with
    | ok s => rfl
    | error e => rfl

theorem shows_lone (c : Char) : Shows (lone c) (Scan.lone c) where
  suffix := by
    intro cs s hs
    obtain ⟨hcs, -⟩ := Scan.lone_eq_ok_iff.mp hs
    exact ⟨[c], hcs.symm⟩
  reads := by
    intro text cs h
    exact (shows_run _ _ _).bind_reads h fun s hs hrest => rfl

theorem skipBlanks_before (h : cs <:+ text) :
    skipBlanks (before text cs) = some (before text (Text.skipBlanks cs)) := by
  rw [skipBlanks, (shows_atLeast 0 isBlank).reads h]
  rfl

/-! ### Words and separators -/

theorem shows_word (start body : Char → Bool) : Shows (word start body) (Scan.word start body) where
  suffix := by
    intro cs s hs
    obtain ⟨hcs, -⟩ := Scan.word_eq_ok_iff.mp hs
    exact ⟨_, hcs.symm⟩
  reads := by
    intro text cs h
    refine run_bind (one_before start h) fun head hhead => ?_
    obtain ⟨rfl, -⟩ := Scan.one_eq_ok_iff.mp hhead
    have hrest : head.rest <:+ text := (List.suffix_cons _ _).trans h
    refine (shows_atLeast 0 body).bind_reads hrest fun tail htail hrest' => ?_
    obtain ⟨hrun, -⟩ := Scan.atLeast_eq_ok_iff.mp htail
    have hsplit : head.value :: head.rest = (head.value :: tail.value) ++ tail.rest := congrArg _ hrun.split
    exact run_lift_bind (since?_before h hsplit) _

theorem shows_comment : Shows comment Scan.comment where
  suffix := by
    intro cs s hs
    obtain ⟨slashes, hslashes, h⟩ := bind_eq_ok_iff.mp hs
    obtain ⟨body, hbody, h⟩ := bind_eq_ok_iff.mp h
    cases h
    exact ((shows_atLeast _ _).suffix hbody).trans ((shows_atLeast _ _).suffix hslashes)
  reads := by
    intro text cs h
    refine (shows_atLeast 2 _).bind_reads h fun slashes hslashes hrest => ?_
    refine (shows_atLeast 0 _).bind_reads hrest fun body hbody hrest' => ?_
    obtain ⟨hslashes, -⟩ := Scan.atLeast_eq_ok_iff.mp hslashes
    obtain ⟨hbody, -⟩ := Scan.atLeast_eq_ok_iff.mp hbody
    have hsplit : cs = (slashes.value ++ body.value) ++ body.rest := by
      rw [hslashes.split, hbody.split, List.append_assoc]
    exact run_lift_bind (since?_before h hsplit) _

theorem shows_identifier : Shows identifier Scan.identifier := shows_word _ _

theorem shows_mnemonic : Shows mnemonic Scan.mnemonic := shows_word _ _

theorem shows_nonBlank : Shows nonBlank Scan.nonBlank := shows_atLeast _ _

theorem shows_label : Shows label Scan.label where
  suffix := by
    intro cs s hs
    obtain ⟨hcs, -⟩ := Scan.label_eq_ok_iff.mp hs
    exact ⟨s.value ++ [':'], by rw [hcs]; simp⟩
  reads := by
    intro text cs h
    refine shows_identifier.bind_reads h fun name hname hrest => ?_
    exact (shows_lone ':').bind_reads hrest fun colon hcolon hrest' => rfl

theorem shows_register : Shows register Scan.register where
  suffix := by
    intro cs s hs
    obtain ⟨hcs, -⟩ := Scan.register_eq_ok_iff.mp hs
    exact ⟨'$' :: s.value, hcs.symm⟩
  reads := by
    intro text cs h
    refine (shows_lone '$').bind_reads h fun sigil hsigil hrest => ?_
    exact shows_identifier.bind_reads hrest fun name hname hrest' => rfl

theorem shows_hash : Shows hash Scan.hash := shows_lone _

theorem shows_comma : Shows comma Scan.comma := shows_lone _

/-! ### Literals -/

theorem shows_boolean : Shows boolean Scan.boolean where
  suffix := by
    intro cs s hs
    obtain ⟨w, hrun, -⟩ := Scan.boolean_eq_ok_iff.mp hs
    exact ⟨w, hrun.split.symm⟩
  reads := by
    intro text cs h
    refine (shows_atLeast 0 _).bind_reads h fun letters hletters hrest => ?_
    by_cases htrue : letters.value.map Char.toLower = "true".toList
    · simp only [moved_value, htrue, if_true]
      rfl
    · by_cases hfalse : letters.value.map Char.toLower = "false".toList
      · simp only [moved_value, hfalse, if_true]
        rfl
      · simp only [moved_value, htrue, hfalse, if_false]
        rfl

theorem shows_number : Shows number Scan.number where
  suffix := by
    intro cs s hs
    obtain ⟨n, hcs, -⟩ := Scan.numeral_of_number hs
    exact ⟨n.text, hcs.symm⟩
  reads := by
    intro text cs h
    refine (shows_run _ _ _).bind_reads h fun sign hsign hrest₁ => ?_
    refine (shows_atLeast _ _).bind_reads hrest₁ fun whole hwhole hrest₂ => ?_
    refine (shows_run _ _ _).bind_reads hrest₂ fun point hpoint hrest₃ => ?_
    refine (shows_atLeast _ _).bind_reads hrest₃ fun fraction hfraction hrest₄ => ?_
    obtain ⟨hsign, -⟩ := Scan.run_eq_ok_iff.mp hsign
    obtain ⟨hwhole, -⟩ := Scan.atLeast_eq_ok_iff.mp hwhole
    obtain ⟨hpoint, -⟩ := Scan.run_eq_ok_iff.mp hpoint
    obtain ⟨hfraction, -⟩ := Scan.atLeast_eq_ok_iff.mp hfraction
    have hsplit : cs = (sign.value ++ whole.value ++ point.value ++ fraction.value) ++ fraction.rest := by
      rw [hsign.split, hwhole.split, hpoint.split, hfraction.split]
      simp
    refine (run_lift_bind (since?_before h hsplit) _).trans ?_
    simp only
    cases Number.parse? (sign.value ++ whole.value ++ point.value ++ fraction.value) with
    | some x => rfl
    | none => rfl

theorem shows_string : Shows string Scan.string where
  suffix := by
    intro cs s hs
    obtain ⟨hcs, -⟩ := Scan.string_eq_ok_iff.mp hs
    exact ⟨Scan.quote :: (s.value ++ [Scan.quote]), by rw [hcs]; simp⟩
  reads := by
    intro text cs h
    refine run_bind (one_before _ h) fun opening hopening => ?_
    have hrest := (suffix_of_one hopening).trans h
    refine (shows_atLeast 0 _).bind_reads hrest fun body hbody hrest' => ?_
    have hclosing := one_before (· == Scan.quote) hrest'
    cases hone : Scan.one (· == Scan.quote) body.rest with
    | ok closing =>
      rw [hone] at hclosing
      exact run_ok_bind (run_adapt hclosing _) _
    | error e =>
      rw [hone] at hclosing
      exact run_error_bind (run_adapt hclosing _) _

end Cursor
end StackScript
