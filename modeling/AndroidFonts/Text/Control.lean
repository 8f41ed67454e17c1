/-
# `AndroidFonts.Text.Control` — terminal control sequences, and text without them

A terminal takes some characters as orders.  An escape character begins a control sequence:

* a *short* one ends with one more character, which a few others may precede;
* a *control* sequence (`[`) ends with a letter or a like character;
* a *device control* string (`P`) has a head like that, and then a text;
* a *system command* (`]`) is a text that a bell ends too.

A text ends where a terminator stands, the byte 0x9c; inside one that is looked for byte by byte,
so the encoding of another character may hold it.  Every sequence is broken off by the two cancel
characters and by the next escape character.  Outside of texts white space breaks a sequence off as
well, and is kept.

`withoutControls` is what remains of a text once sequences and other control characters are left
out: a text without controls is kept as it is (`withoutControls_of_all`).
-/
namespace AndroidFonts.Text

/-- Where the reader of control sequences stands. -/
inductive ControlState where
  /-- Outside of sequences. -/
  | ground
  /-- Just behind an escape character. -/
  | escape
  /-- In a short sequence that only lacks its last character. -/
  | short
  | control
  /-- At the head of a device control string. -/
  | device
  /-- Behind the parameters of a device control string. -/
  | deviceParameters
  /-- Behind the characters that come before the last one of the head. -/
  | deviceIntermediate
  /-- In a text that is passed over. -/
  | passedOver
  | systemCommand
deriving Repr, DecidableEq

namespace ControlState

/-- White space that a terminal prints even inside a sequence. -/
def isPrintedBlank (c : Char) : Bool :=
  c = '\t' || c = '\n' || c = '\x0c' || c = '\r'

/-- Whether a character is printed where no sequence is open. -/
def isPrinted (c : Char) : Bool :=
  (0x20 ≤ c.toNat && c.toNat ≠ 0x7f) || isPrintedBlank c

/-- Whether a character may stand before the last one of a sequence. -/
def isIntermediate (c : Char) : Bool := 0x20 ≤ c.toNat && c.toNat ≤ 0x2f

/-- Whether a character may end a control sequence. -/
def isFinal (c : Char) : Bool := 0x40 ≤ c.toNat && c.toNat ≤ 0x7e

/-- Whether a byte of the encoding of a character is the terminator of texts. -/
def holdsTerminator (c : Char) : Bool :=
  let n := c.toNat
  (0x80 ≤ n && n % 0x40 = 0x1c) || (0x800 ≤ n && n / 0x40 % 0x40 = 0x1c) ||
    (0x10000 ≤ n && n / 0x1000 % 0x40 = 0x1c)

/-- The state behind an escape character and one more. -/
def afterEscape (c : Char) : ControlState :=
  if isIntermediate c then .short
  else
    match c with
    | '[' => .control
    | ']' => .systemCommand
    | 'P' => .device
    | 'X' => .passedOver
    | '^' => .passedOver
    | '_' => .passedOver
    | c => if 0x30 ≤ c.toNat && c.toNat ≤ 0x7e then .ground else .escape

/-- The state behind one more character of a sequence, where it is not broken off. -/
def next (s : ControlState) (c : Char) : ControlState :=
  match s with
  | .ground => .ground
  | .escape => afterEscape c
  | .short => if 0x30 ≤ c.toNat && c.toNat ≤ 0x7e then .ground else .short
  | .control => if isFinal c then .ground else .control
  | .device =>
    if isFinal c then .passedOver
    else if isIntermediate c then .deviceIntermediate
    else if 0x30 ≤ c.toNat && c.toNat ≤ 0x3f then .deviceParameters
    else .device
  | .deviceParameters =>
    if isFinal c || ('<' ≤ c && c ≤ '?') then .passedOver
    else if isIntermediate c then .deviceIntermediate
    else .deviceParameters
  | .deviceIntermediate =>
    if isFinal c || (0x30 ≤ c.toNat && c.toNat ≤ 0x3f) then .passedOver else .deviceIntermediate
  | .passedOver => if holdsTerminator c then .ground else .passedOver
  | .systemCommand => if c = '\x07' then .ground else .systemCommand

/-- Whether white space breaks a sequence off and is printed. -/
def yieldsToBlank : ControlState → Bool
  | .ground => true
  | .escape => true
  | .short => true
  | .control => true
  | _ => false

/-- The state behind a character, and whether the character is printed. -/
def step (s : ControlState) (c : Char) : ControlState × Bool :=
  if c = '\x1b' then (.escape, false)
  else if c = '\x18' || c = '\x1a' then (.ground, false)
  else if isPrintedBlank c && s.yieldsToBlank then (.ground, true)
  else (s.next c, s = .ground && isPrinted c)

end ControlState

/-- What is printed of a text, from a state on. -/
def printedFrom : ControlState → List Char → List Char
  | _, [] => []
  | s, c :: r =>
    if (s.step c).2 then c :: printedFrom (s.step c).1 r else printedFrom (s.step c).1 r

/-- A text without control sequences and other control characters; white space is kept. -/
def withoutControls (s : List Char) : List Char := printedFrom .ground s

/-- A text in which every character is printed is kept. -/
theorem withoutControls_of_all {s : List Char} (h : s.all ControlState.isPrinted) :
    withoutControls s = s := by
  unfold withoutControls
  induction s with
  | nil => rfl
  | cons c r ih =>
    obtain ⟨hc, hr⟩ : ControlState.isPrinted c = true ∧ r.all ControlState.isPrinted = true := by
      simpa using h
    have h1 : c ≠ '\x1b' := by rintro rfl; simp [ControlState.isPrinted,
      ControlState.isPrintedBlank] at hc
    have h2 : c ≠ '\x18' := by rintro rfl; simp [ControlState.isPrinted,
      ControlState.isPrintedBlank] at hc
    have h3 : c ≠ '\x1a' := by rintro rfl; simp [ControlState.isPrinted,
      ControlState.isPrintedBlank] at hc
    have hstep : ControlState.step .ground c = (.ground, true) := by
      simp [ControlState.step, h1, h2, h3, ControlState.next, ControlState.yieldsToBlank, hc]
    simp [printedFrom, hstep, ih hr]

end AndroidFonts.Text
