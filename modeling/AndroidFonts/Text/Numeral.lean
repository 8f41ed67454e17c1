/-
# `AndroidFonts.Text.Numeral` — decimal numbers in text

A natural number is written with ASCII digits, at least one, and may have a plus in front.  An
integer may have a minus instead, and has to fit 64 bits; the four ways in which it can fail are
told apart.  Code points are given by hexadecimal digits.
-/
namespace AndroidFonts.Text

/-- What a number of 16 bits is less than. -/
def shortLimit : Nat := 0x10000

/-- What an integer of 64 bits is less than. -/
def signedLimit : Nat := 0x8000000000000000

/-- The value of a run of digits. -/
def digitsValue (s : List Char) : Nat :=
  s.foldl (fun n c => 10 * n + (c.toNat - '0'.toNat)) 0

/-- The text without a plus in front. -/
def dropPlus : List Char → List Char
  | '+' :: s => s
  | s => s

/-- The number a text denotes. -/
def readNat? (s : List Char) : Option Nat :=
  let digits := dropPlus s
  if digits ≠ [] && digits.all Char.isDigit then some (digitsValue digits) else none

/-- The number a text denotes, if it fits 16 bits. -/
def readNat16? (s : List Char) : Option Nat :=
  (readNat? s).filter (· < shortLimit)

/-- Why a text denotes no 64-bit integer. -/
inductive NumeralError where
  | empty
  | invalidDigit
  | tooLarge
  | tooSmall
deriving Repr, DecidableEq

def NumeralError.message : NumeralError → String
  | .empty => "cannot parse integer from empty string"
  | .invalidDigit => "invalid digit found in string"
  | .tooLarge => "number too large to fit in target type"
  | .tooSmall => "number too small to fit in target type"

/-- The value of a run of digits that continues `n`, at most `limit`.  The first character that is
no digit or that takes the value beyond the limit decides how reading fails. -/
def boundedValue (limit : Nat) (beyond : NumeralError) :
    Nat → List Char → Except NumeralError Nat
  | n, [] => .ok n
  | n, c :: s =>
    if !c.isDigit then .error .invalidDigit
    else if limit < 10 * n + (c.toNat - '0'.toNat) then .error beyond
    else boundedValue limit beyond (10 * n + (c.toNat - '0'.toNat)) s

/-- The 64-bit integer a text denotes. -/
def readInt64 (s : List Char) : Except NumeralError Int :=
  match s with
  | [] => .error .empty
  | '-' :: digits =>
    if digits = [] then .error .invalidDigit
    else (boundedValue signedLimit .tooSmall 0 digits).map fun n => -(n : Int)
  | s =>
    if dropPlus s = [] then .error .invalidDigit
    else (boundedValue (signedLimit - 1) .tooLarge 0 (dropPlus s)).map fun n => (n : Int)

/-! ## Hexadecimal digits -/

def hexValue? (c : Char) : Option Nat :=
  if c.isDigit then some (c.toNat - '0'.toNat)
  else if 'a' ≤ c && c ≤ 'f' then some (c.toNat - 'a'.toNat + 10)
  else if 'A' ≤ c && c ≤ 'F' then some (c.toNat - 'A'.toNat + 10)
  else none

/-- The character whose code point some hexadecimal digits give. -/
def charOfHex? (digits : List Char) : Option Char := do
  let values ← digits.mapM hexValue?
  let n := values.foldl (fun n d => 16 * n + d) 0
  if n.isValidChar then some (Char.ofNat n) else none

end AndroidFonts.Text
