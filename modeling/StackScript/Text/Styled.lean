/-!
# Styled text

Text for a terminal may hold escape sequences, which set colours and the like. Where there is no terminal its
*plain* form is shown: without the sequences, and without the control characters other than tabs and line breaks.

A sequence starts with an escape character and can start anywhere, also inside another one, which ends there. A cancel or a
substitute character ends a sequence too. What else ends it depends on its kind, given by the character after the escape.
-/

namespace StackScript
namespace Styled

/-! ### Styles -/

def escapeCode : Char := '\x1b'

/-- Text in the style with the number `code`. -/
def style (code : Nat) (text : String) : String :=
  let sequence := fun n => String.ofList [escapeCode, '['] ++ toString n ++ "m"
  sequence code ++ text ++ sequence 0

def bold (text : String) : String := style 1 text
def red (text : String) : String := style 31 text
def yellow (text : String) : String := style 33 text

/-! ### Sequences -/

/-- Where a reader of styled text is. -/
inductive Mode where
  /-- Outside of sequences. -/
  | text
  /-- Right after an escape character. -/
  | escape
  /-- In a sequence of marks that a letter or digit ends. -/
  | marks
  /-- In a control sequence, after `[`. -/
  | control
  /-- In a device control string, after `P`. -/
  | device
  | deviceParameters
  | deviceMarks
  /-- In the body of a string, which only a terminator ends. -/
  | string
  /-- In an operating system command, after `]`, which a bell ends. -/
  | command
deriving DecidableEq, Repr

/-- Tabs and line breaks, the control characters that are shown. -/
def isShownControl (c : Char) : Bool := c == '\t' || c == '\n' || c == '\x0c' || c == '\r'

def isControl (c : Char) : Bool := decide (c.toNat < 0x20) || c.toNat == 0x7f

/-- Whether a character ends a string: the code of the terminator is among its bytes. -/
def terminates (c : Char) : Bool := (String.utf8EncodeChar c).contains 0x9c

namespace Mode

/-- Whether a character is shown. Tabs and line breaks are shown in short sequences too. -/
def shows (m : Mode) (c : Char) : Bool :=
  match m with
  | .text => !isControl c || isShownControl c
  | .escape => isShownControl c
  | .marks => isShownControl c
  | .control => isShownControl c
  | _ => false

/-- Where a character that is not shown leads to. -/
def next (m : Mode) (c : Char) : Mode :=
  let code := c.toNat
  let within := fun first last => decide (first ≤ code ∧ code ≤ last)
  if code == 0x18 || code == 0x1a then .text
  else if c == escapeCode then .escape
  else
    match m with
    | .text => .text
    | .escape =>
      if c == '[' then .control
      else if c == ']' then .command
      else if c == 'P' then .device
      else if c == 'X' || c == '^' || c == '_' then .string
      else if within 0x20 0x2f then .marks
      else if within 0x30 0x7e then .text
      else .escape
    | .marks => if within 0x30 0x7e then .text else .marks
    | .control => if within 0x40 0x7e then .text else .control
    | .device =>
      if within 0x20 0x2f then .deviceMarks
      else if within 0x30 0x3f then .deviceParameters
      else if within 0x40 0x7e then .string
      else .device
    | .deviceParameters =>
      if within 0x20 0x2f then .deviceMarks
      else if within 0x3c 0x7e then .string
      else .deviceParameters
    | .deviceMarks => if within 0x30 0x7e then .string else .deviceMarks
    | .string => if terminates c then .text else .string
    | .command => if code == 0x07 then .text else .command

end Mode

/-! ### Plain text -/

/-- A reader of styled text. A tab or line break suspends the sequence it stands in: the text after it is shown up to the
next control character, and there the sequence goes on. A character outside of ASCII ends a suspended sequence. -/
structure Reader where
  mode : Mode := .text
  suspended : Bool := false
deriving DecidableEq, Repr

namespace Reader

/-- The mode that decides whether a character is shown. -/
def shownMode (r : Reader) : Mode := if r.suspended then .text else r.mode

/-- The reader after a character that is shown. -/
def afterShown (r : Reader) (c : Char) : Reader :=
  if r.mode = .text || decide (0x80 ≤ c.toNat) then {} else { r with suspended := true }

/-- The plain form of what a reader has before it. -/
def plain (r : Reader) : List Char → List Char
  | [] => []
  | c :: cs =>
    if r.shownMode.shows c then c :: (r.afterShown c).plain cs
    else plain { mode := r.mode.next c } cs

end Reader

/-- The plain form of a text. -/
def plain (text : String) : String := String.ofList (({} : Reader).plain text.toList)

end Styled
end StackScript
