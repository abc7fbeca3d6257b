import StackScript.Proofs.Text.Longest
import StackScript.Proofs.Text.View

/-!
# Cutting up a text

A text is read by calls of consumers, one after the other, each at the cursor that the calls before it have reached.
A call that succeeds moves the cursor behind the piece that it took, and one that fails leaves it. Main statement
(`calls_cut_text`): no sequence of calls is aborted, the pieces and what remains make up the text, and the position of
the cursor, which the consumers add up from the bytes of the characters that they count, always lies between two
characters of the text.

What one consumer takes is known from the scanner that it shows (`Kind.cuts`). The sequence is by induction over the
calls, with the cursor before some end of the text as the invariant (`thread?_before`).
-/

namespace StackScript
namespace Cursor

open Text Fallible

/-! ### Calls -/

/-- The consumers of scripts. -/
inductive Kind where
  | run (p : Char → Bool) (least : Nat) (most : Option Nat)
  | one (p : Char → Bool)
  | nonBlank
  | comment
  | identifier
  | mnemonic
  | label
  | register
  | hash
  | comma
  | boolean
  | number
  | string

namespace Kind

/-- What a consumer finds. -/
abbrev Item : Kind → Type
  | .hash | .comma => Unit
  | .boolean => Bool
  | .number => Number
  | .run _ _ _ | .one _ | .nonBlank | .comment | .identifier | .mnemonic | .label | .register | .string => List Char

def consume : (k : Kind) → Consumer k.Item
  | .run p least most => Cursor.run p least most
  | .one p => Cursor.one p
  | .nonBlank => Cursor.nonBlank
  | .comment => Cursor.comment
  | .identifier => Cursor.identifier
  | .mnemonic => Cursor.mnemonic
  | .label => Cursor.label
  | .register => Cursor.register
  | .hash => Cursor.hash
  | .comma => Cursor.comma
  | .boolean => Cursor.boolean
  | .number => Cursor.number
  | .string => Cursor.string

/-- The item is what the consumer has to make of the piece: for a label, a register or a string the part between
the signs that mark it, for other texts the whole piece, and for a literal its value. -/
def Makes : (k : Kind) → List Char → k.Item → Prop
  | .label, piece, name => piece = name ++ [':']
  | .register, piece, name => piece = '$' :: name
  | .string, piece, cs => piece = Scan.quote :: (cs ++ [Scan.quote])
  | .run _ _ _, piece, cs | .nonBlank, piece, cs | .comment, piece, cs | .identifier, piece, cs
  | .mnemonic, piece, cs => piece = cs
  | .one _, piece, cs => piece = cs ∧ piece.length = 1
  | .hash, piece, _ => piece = ['#']
  | .comma, piece, _ => piece = [',']
  | .boolean, piece, b => piece.map Char.toLower = if b then "true".toList else "false".toList
  | .number, piece, x => Number.parse? piece = some x

end Kind

/-- One step in reading a text: blanks are skipped, or a consumer is tried. -/
inductive Call where
  | skipBlanks
  | consume (k : Kind)

/-- The cursor behind a call: a consumer that fails leaves it where it was. -/
def Call.next? : Call → Cursor → Option Cursor
  | .skipBlanks, c => Cursor.skipBlanks c
  | .consume k, c => do
    match ← (k.consume c).run with
    | .ok s => return s.rest
    | .error _ => return c

/-- Makes calls one after the other. The outcome is the text between the cursors before and behind each call, and the
cursor behind the last one. -/
def thread? : List Call → Cursor → Option (List (List Char) × Cursor)
  | [], c => some ([], c)
  | call :: calls, c => do
    let next ← call.next? c
    let piece ← next.since? c
    let (pieces, last) ← thread? calls next
    return (piece :: pieces, last)

/-! ### What a consumer takes -/

/-- All slashes and all that follows them. -/
theorem cuts_comment {cs : List Char} {s : Scan.Scanned (List Char)} (h : Scan.comment cs = .ok s) :
    cs = s.value ++ s.rest ∧ s.count = s.value.length := by
  simp only [Scan.comment, bind_eq_ok_iff, pure_eq_ok, Except.ok.injEq] at h
  obtain ⟨slashes, hslashes, body, hbody, rfl⟩ := h
  obtain ⟨hslashes, hcount, -⟩ := Scan.atLeast_eq_ok_iff.mp hslashes
  obtain ⟨hbody, hcount', -⟩ := Scan.atLeast_eq_ok_iff.mp hbody
  constructor
  · rw [hslashes.split, hbody.split, List.append_assoc]
  · rw [hcount, hcount', List.length_append]

namespace Kind

/-- The scanner that a consumer shows. -/
def scan : (k : Kind) → Scanner k.Item
  | .run p least most => Scan.run p least most
  | .one p => fun cs => (Scan.one p cs).map fun s => ⟨[s.value], s.count, s.rest⟩
  | .nonBlank => Scan.nonBlank
  | .comment => Scan.comment
  | .identifier => Scan.identifier
  | .mnemonic => Scan.mnemonic
  | .label => Scan.label
  | .register => Scan.register
  | .hash => Scan.hash
  | .comma => Scan.comma
  | .boolean => Scan.boolean
  | .number => Scan.number
  | .string => Scan.string

/-- A scanner that succeeds has taken a piece off its text and counted its characters, and its item is what it has
to make of the piece. -/
theorem cuts (k : Kind) {cs : List Char} {s : Scan.Scanned k.Item} (h : k.scan cs = .ok s) :
    ∃ piece, cs = piece ++ s.rest ∧ s.count = piece.length ∧ k.Makes piece s.value := by
  obtain ⟨value, count, rest⟩ := s
  cases k with
  | run p least most =>
    obtain ⟨hrun, hcount, -⟩ := Scan.run_eq_ok_iff.mp h
    exact ⟨value, hrun.split, hcount, rfl⟩
  | one p =>
    obtain ⟨s, hs, hmade⟩ := map_eq_ok_iff.mp h
    cases hmade
    obtain ⟨hcs, hcount, -⟩ := Scan.one_eq_ok_iff.mp hs
    exact ⟨[s.value], hcs, hcount, rfl, rfl⟩
  | nonBlank =>
    obtain ⟨hrun, hcount, -⟩ := Scan.atLeast_eq_ok_iff.mp h
    exact ⟨value, hrun.split, hcount, rfl⟩
  | comment =>
    obtain ⟨hcs, hcount⟩ := cuts_comment h
    exact ⟨value, hcs, hcount, rfl⟩
  | identifier =>
    obtain ⟨hcs, -, -, hcount⟩ := Scan.word_eq_ok_iff.mp h
    exact ⟨value, hcs, hcount, rfl⟩
  | mnemonic =>
    obtain ⟨hcs, -, -, hcount⟩ := Scan.word_eq_ok_iff.mp h
    exact ⟨value, hcs, hcount, rfl⟩
  | label =>
    obtain ⟨hcs, -, -, hcount⟩ := Scan.label_eq_ok_iff.mp h
    exact ⟨value ++ [':'], by simpa using hcs, by simpa using hcount, rfl⟩
  | register =>
    obtain ⟨hcs, -, -, hcount⟩ := Scan.register_eq_ok_iff.mp h
    exact ⟨'$' :: value, hcs, by simpa [Nat.add_comm] using hcount, rfl⟩
  | hash =>
    obtain ⟨hcs, -, hcount⟩ := Scan.lone_eq_ok_iff.mp h
    exact ⟨['#'], hcs, hcount, rfl⟩
  | comma =>
    obtain ⟨hcs, -, hcount⟩ := Scan.lone_eq_ok_iff.mp h
    exact ⟨[','], hcs, hcount, rfl⟩
  | boolean =>
    obtain ⟨piece, hrun, hcount, hlower⟩ := Scan.boolean_eq_ok_iff.mp h
    exact ⟨piece, hrun.split, hcount, hlower⟩
  | number =>
    obtain ⟨n, hcs, hvalue, hcount, -⟩ := Scan.numeral_of_number h
    exact ⟨n.text, hcs, hcount, hvalue ▸ n.parse?_text⟩
  | string =>
    obtain ⟨hcs, -, hcount⟩ := Scan.string_eq_ok_iff.mp h
    exact ⟨Scan.quote :: (value ++ [Scan.quote]), by simpa using hcs, by simpa using hcount, rfl⟩

theorem shows (k : Kind) : Shows k.consume k.scan := by
  cases k with
  | run p least most => exact shows_run p least most
  | one p => exact shows_one p
  | nonBlank => exact shows_nonBlank
  | comment => exact shows_comment
  | identifier => exact shows_identifier
  | mnemonic => exact shows_mnemonic
  | label => exact shows_label
  | register => exact shows_register
  | hash => exact shows_hash
  | comma => exact shows_comma
  | boolean => exact shows_boolean
  | number => exact shows_number
  | string => exact shows_string

end Kind

/-! ### What a sequence of calls takes -/

variable {text cs : List Char}

/-- A call at a cursor before an end of the text moves it before an end of this end. -/
theorem Call.next?_before (call : Call) (h : cs <:+ text) :
    ∃ piece rest, cs = piece ++ rest ∧ call.next? (before text cs) = some (before text rest) := by
  cases call with
  | skipBlanks =>
    obtain ⟨blanks, hsplit, -⟩ := exists_skipBlanks cs
    exact ⟨blanks, _, hsplit, skipBlanks_before h⟩
  | consume k =>
    rw [next?, k.shows.reads h]
    cases hscan : k.scan cs with
    | ok s =>
      obtain ⟨piece, hsplit, -⟩ := k.cuts hscan
      exact ⟨piece, s.rest, hsplit, rfl⟩
    | error e => exact ⟨[], cs, rfl, rfl⟩

theorem thread?_before (calls : List Call) (h : cs <:+ text) :
    ∃ pieces rest, cs = pieces.flatten ++ rest ∧ thread? calls (before text cs) = some (pieces, before text rest) := by
  induction calls generalizing cs with
  | nil => exact ⟨[], cs, rfl, rfl⟩
  | cons call calls ih =>
    obtain ⟨piece, mid, hsplit, hnext⟩ := call.next?_before h
    have hmid : mid <:+ text := (hsplit ▸ List.suffix_append piece mid).trans h
    obtain ⟨pieces, rest, hmid', hthread⟩ := ih hmid
    refine ⟨piece :: pieces, rest, ?_, ?_⟩
    · rw [hsplit, hmid', List.flatten_cons, List.append_assoc]
    · rw [thread?, hnext]
      simp only [Option.bind_eq_bind, Option.bind_some, since?_before h hsplit, hthread]
      rfl

/-- A cursor before an end of a string is a position of it, between two characters, and what remains are the bytes
from there on. -/
theorem before_pos_isValid {text : String} {w rest : List Char} (h : text.toList = w ++ rest) :
    String.Pos.Raw.IsValid text ⟨(before text.toList rest).pos⟩ ∧
      (String.ofList rest).toByteArray =
        text.toByteArray.extract (before text.toList rest).pos text.utf8ByteSize := by
  have hsplit : text = String.ofList w ++ String.ofList rest := by
    rw [← String.ofList_append, ← h, String.ofList_toList]
  have hsplits := String.Pos.splits_ofEqAppend hsplit
  have hoffset : (String.Pos.ofEqAppend hsplit).offset = ⟨(before text.toList rest).pos⟩ := by
    rw [hsplits.offset_eq_rawEndPos, before_pos_of_split h, ← utf8ByteSize_ofList]
    rfl
  have hvalid := (String.Pos.ofEqAppend hsplit).isValid
  have hbytes := hsplits.toByteArray_right_eq
  rw [hoffset] at hvalid hbytes
  exact ⟨hvalid, hbytes⟩

/-! ### What the next call takes -/

/-- A consumer is not aborted, and if it succeeds it has moved behind a piece of what remained. -/
theorem Kind.takes (k : Kind) (h : cs <:+ text) :
    ∃ r, (k.consume (before text cs)).run = some r ∧
      ∀ s, r = .ok s → ∃ piece after, s.rest.since? (before text cs) = some piece ∧
        s.rest.remaining? = some after ∧ cs = piece ++ after ∧ s.count = piece.length ∧ k.Makes piece s.value := by
  refine ⟨_, k.shows.reads h, ?_⟩
  intro s hs
  obtain ⟨s', hscan, rfl⟩ := map_eq_ok_iff.mp hs
  obtain ⟨piece, hsplit, hcount, hmakes⟩ := k.cuts hscan
  exact ⟨piece, s'.rest, since?_before h hsplit, remaining?_before ((k.shows.suffix hscan).trans h), hsplit, hcount,
    hmakes⟩

/-- A run is taken exactly if the longest one is within the bounds, and then it is the longest one. -/
theorem run_takes_longest (p : Char → Bool) (least : Nat) (most : Option Nat) (h : cs <:+ text) :
    ∃ w, Longest (∀ c ∈ ·, p c = true) cs w ∧
      ((∃ s, (run p least most (before text cs)).run = some (.ok s)) ↔
        least ≤ w.length ∧ ∀ m ∈ most, w.length ≤ m) ∧
      ∀ s, (run p least most (before text cs)).run = some (.ok s) →
        s.value = w ∧ s.count = w.length ∧ s.rest.since? (before text cs) = some w := by
  have hrun := longestRun_takeWhile p cs
  have htakes : ∀ s, Scan.run p least most cs = .ok s →
      LongestRun p cs s.value s.rest ∧ s.value = cs.takeWhile p ∧ s.count = (cs.takeWhile p).length ∧
        least ≤ (cs.takeWhile p).length ∧ ∀ m ∈ most, (cs.takeWhile p).length ≤ m := by
    intro s hs
    obtain ⟨hrun', hcount, hleast, hmost⟩ := Scan.run_eq_ok_iff.mp hs
    have hvalue : cs.takeWhile p = s.value := (longestRun_iff.mp hrun').1
    rw [hvalue]
    exact ⟨hrun', rfl, hcount, hleast, hmost⟩
  refine ⟨cs.takeWhile p, longest_iff_longestRun.mpr ⟨_, hrun⟩, ⟨?_, ?_⟩, ?_⟩
  · intro ⟨s, hs⟩
    obtain ⟨s', hs', -⟩ := ((shows_run p least most).run_eq_ok_iff h).mp hs
    obtain ⟨-, -, -, hbounds⟩ := htakes s' hs'
    exact hbounds
  · intro ⟨hleast, hmost⟩
    have hscan := Scan.run_eq_ok_iff.mpr ⟨hrun, rfl, hleast, hmost⟩
    exact ⟨_, ((shows_run p least most).run_eq_ok_iff h).mpr ⟨_, hscan, rfl⟩⟩
  · intro s hs
    obtain ⟨s', hs', rfl⟩ := ((shows_run p least most).run_eq_ok_iff h).mp hs
    obtain ⟨hrun', hvalue, hcount, -⟩ := htakes s' hs'
    exact ⟨hvalue, hcount, since?_before h (hvalue ▸ hrun'.split)⟩

/-- Nothing of a text is lost or read twice, whatever calls read it, and none of them is aborted: the text is the
pieces taken, one after the other, and what remains. The cursor between them is not behind the end and not inside a
character, and what remains are the bytes from its position on. Every consumer can be tried there. A success counts
the characters of its piece and makes its item of the piece, and a run is taken exactly if the longest one is within
its bounds. -/
theorem calls_cut_text (text : String) (calls : List Call) :
    ∃ pieces last rest, thread? calls (start text.toList) = some (pieces, last) ∧
      last.since? (start text.toList) = some pieces.flatten ∧ last.remaining? = some rest ∧
      text.toList = pieces.flatten ++ rest ∧
      last.pos ≤ text.utf8ByteSize ∧ String.Pos.Raw.IsValid text ⟨last.pos⟩ ∧
      (String.ofList rest).toByteArray = text.toByteArray.extract last.pos text.utf8ByteSize ∧
      (last.atEnd = true ↔ rest = []) ∧
      (∀ k : Kind, ∃ r, (k.consume last).run = some r ∧
        ∀ s, r = .ok s → ∃ piece after, s.rest.since? last = some piece ∧ s.rest.remaining? = some after ∧
          rest = piece ++ after ∧ s.count = piece.length ∧ k.Makes piece s.value) ∧
      ∀ p least most, ∃ w, Longest (∀ c ∈ ·, p c = true) rest w ∧
        ((∃ s, (run p least most last).run = some (.ok s)) ↔ least ≤ w.length ∧ ∀ m ∈ most, w.length ≤ m) ∧
        ∀ s, (run p least most last).run = some (.ok s) →
          s.value = w ∧ s.count = w.length ∧ s.rest.since? last = some w := by
  rw [← before_self]
  have hself : text.toList <:+ text.toList := List.suffix_rfl
  obtain ⟨pieces, rest, hsplit, hthread⟩ := thread?_before calls hself
  have hrest : rest <:+ text.toList := ⟨_, hsplit.symm⟩
  obtain ⟨hvalid, hbytes⟩ := before_pos_isValid hsplit
  exact ⟨pieces, before text.toList rest, rest, hthread, since?_before hself hsplit, remaining?_before hrest, hsplit,
    hvalid.le_utf8ByteSize, hvalid, hbytes, atEnd_before hrest, fun k => k.takes hrest,
    fun p least most => run_takes_longest p least most hrest⟩

/-- A string with a character of two bytes in it, no label, and a blank. -/
example : thread? [.consume .string, .consume .label, .skipBlanks] (start "\"é\" x".toList) =
    some (["\"é\"".toList, [], [' ']], ⟨"\"é\" x".toList, 5⟩) := by
  decide +kernel

end Cursor
end StackScript
