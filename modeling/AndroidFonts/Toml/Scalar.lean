/-
# `AndroidFonts.Toml.Scalar` — strings, numbers, booleans and dates of TOML 1.1

Strings are read from behind their opening quotes.  All other scalars are a run of characters that
no other part of the syntax uses, which is then told apart by its shape.
-/
import AndroidFonts.Text.Search
import AndroidFonts.Text.Numeral
import AndroidFonts.Toml.Value

namespace AndroidFonts.Toml

open Text

def isWs (c : Char) : Bool := c = ' ' || c = '\t'

def skipWs (s : List Char) : List Char := s.dropWhile isWs

/-- Whether a character may stand in a string as such. -/
def isPlain (c : Char) : Bool := c = '\t' || (0x20 ≤ c.toNat && c.toNat ≠ 0x7f)

/-- The text behind a line break, which is LF or CR LF. -/
def afterNewline? : List Char → Option (List Char)
  | '\n' :: r => some r
  | '\r' :: '\n' :: r => some r
  | _ => none

/-! ## Strings -/

/-- The characters that a one-letter escape stands for. -/
def simpleEscape? : Char → Option Char
  | 'b' => some '\x08'
  | 't' => some '\t'
  | 'n' => some '\n'
  | 'f' => some '\x0c'
  | 'r' => some '\r'
  | 'e' => some '\x1b'
  | '"' => some '"'
  | '\\' => some '\\'
  | _ => none

/-- Puts a character in front of a string that has been read. -/
def cons? (c : Option Char) (r : Option (List Char × List Char)) :
    Option (List Char × List Char) := do
  let c ← c
  let (s, rest) ← r
  return (c :: s, rest)

/-- Reads a string with escapes on one line. -/
def readBasic : List Char → Option (List Char × List Char)
  | [] => none
  | '"' :: r => some ([], r)
  | '\\' :: 'x' :: a :: b :: r => cons? (charOfHex? [a, b]) (readBasic r)
  | '\\' :: 'u' :: a :: b :: c :: d :: r => cons? (charOfHex? [a, b, c, d]) (readBasic r)
  | '\\' :: 'U' :: a :: b :: c :: d :: e :: f :: g :: h :: r =>
    cons? (charOfHex? [a, b, c, d, e, f, g, h]) (readBasic r)
  | '\\' :: c :: r => cons? (simpleEscape? c) (readBasic r)
  | c :: r => if isPlain c && c ≠ '\\' then cons? (some c) (readBasic r) else none

/-- Reads a string without escapes on one line. -/
def readLiteral : List Char → Option (List Char × List Char)
  | [] => none
  | '\'' :: r => some ([], r)
  | c :: r => if isPlain c then cons? (some c) (readLiteral r) else none

/-- Reads a string with escapes over several lines, from behind its opening quotes and the line
break after them.  While `skipping`, after a backslash at the end of a line, white space is left
out.  Up to two quotes may stand before the closing ones. -/
def readLongBasic (skipping : Bool) : List Char → Option (List Char × List Char)
  | [] => none
  | '"' :: '"' :: '"' :: '"' :: '"' :: r => some (['"', '"'], r)
  | '"' :: '"' :: '"' :: '"' :: r => some (['"'], r)
  | '"' :: '"' :: '"' :: r => some ([], r)
  | '\\' :: 'x' :: a :: b :: r => cons? (charOfHex? [a, b]) (readLongBasic false r)
  | '\\' :: 'u' :: a :: b :: c :: d :: r =>
    cons? (charOfHex? [a, b, c, d]) (readLongBasic false r)
  | '\\' :: 'U' :: a :: b :: c :: d :: e :: f :: g :: h :: r =>
    cons? (charOfHex? [a, b, c, d, e, f, g, h]) (readLongBasic false r)
  | '\r' :: '\n' :: r =>
    if skipping then readLongBasic true r
    else cons? (some '\r') (cons? (some '\n') (readLongBasic false r))
  | '\n' :: r =>
    if skipping then readLongBasic true r else cons? (some '\n') (readLongBasic false r)
  | '\\' :: c :: r =>
    if (afterNewline? (skipWs (c :: r))).isSome then readLongBasic true (c :: r)
    else cons? (simpleEscape? c) (readLongBasic false r)
  | c :: r =>
    if skipping && isWs c then readLongBasic true r
    else if isPlain c && c ≠ '\\' then cons? (some c) (readLongBasic false r)
    else none

/-- Reads a string without escapes over several lines. -/
def readLongLiteral : List Char → Option (List Char × List Char)
  | [] => none
  | '\'' :: '\'' :: '\'' :: '\'' :: '\'' :: r => some (['\'', '\''], r)
  | '\'' :: '\'' :: '\'' :: '\'' :: r => some (['\''], r)
  | '\'' :: '\'' :: '\'' :: r => some ([], r)
  | '\r' :: '\n' :: r => cons? (some '\r') (cons? (some '\n') (readLongLiteral r))
  | c :: r => if isPlain c || c = '\n' then cons? (some c) (readLongLiteral r) else none

/-- The text behind a line break that directly follows opening quotes. -/
def dropNewline (s : List Char) : List Char := (afterNewline? s).getD s

/-- Reads a string of any kind. -/
def readString : List Char → Option (List Char × List Char)
  | '"' :: '"' :: '"' :: r => readLongBasic false (dropNewline r)
  | '"' :: r => readBasic r
  | '\'' :: '\'' :: '\'' :: r => readLongLiteral (dropNewline r)
  | '\'' :: r => readLiteral r
  | _ => none

/-! ## Numbers -/

/-- The digits of a run in which single low lines may stand between digits. -/
def digits? (isDigit : Char → Bool) (s : List Char) : Option (List Char) :=
  if s.all (fun c => isDigit c || c = '_') && (s.head?.map isDigit).getD false &&
      (s.getLast?.map isDigit).getD false && !occursIn ['_', '_'] s then
    some (s.filter (· ≠ '_'))
  else none

/-- The digits of a decimal number, which has no needless zero in front. -/
def decimalDigits? (s : List Char) : Option (List Char) :=
  match digits? Char.isDigit s with
  | some ('0' :: _ :: _) => none
  | r => r

/-- A text without its sign, and whether the sign was a minus. -/
def splitSign : List Char → Bool × List Char
  | '-' :: s => (true, s)
  | '+' :: s => (false, s)
  | s => (false, s)

/-- A whole number that fits 64 bits. -/
def fitted? (negative : Bool) (n : Nat) : Option Int :=
  if negative then (if n ≤ signedLimit then some (-(n : Int)) else none)
  else (if n < signedLimit then some n else none)

/-- The number some digits in a base denote. -/
def inBase? (base : Nat) (isDigit : Char → Bool) (s : List Char) : Option Int := do
  let digits ← digits? isDigit s
  fitted? false (digits.foldl (fun n c => base * n + (hexValue? c).getD 0) 0)

/-- The whole number a run denotes. -/
def integer? : List Char → Option Int
  | '0' :: 'x' :: s => inBase? 16 (fun c => (hexValue? c).isSome) s
  | '0' :: 'o' :: s => inBase? 8 (fun c => c.isDigit && c ≤ '7') s
  | '0' :: 'b' :: s => inBase? 2 (fun c => c = '0' || c = '1') s
  | s => do
    let (negative, s) := splitSign s
    fitted? negative (digitsValue (← decimalDigits? s))

/-- A number in decimal notation without its sign: `digits` times ten to the `exponent`. -/
structure Decimal where
  digits : List Char
  exponent : Int
deriving Repr, DecidableEq

/-- The exponent a run denotes, from behind its letter. -/
def exponent? (s : List Char) : Option Int := do
  let (negative, s) := splitSign s
  let n := digitsValue (← digits? Char.isDigit s)
  return if negative then -(n : Int) else n

/-- The number that a run with a fraction or an exponent denotes, its sign aside. -/
def decimal? (s : List Char) : Option Decimal := do
  let isE := fun c => c = 'e' || c = 'E'
  let mantissa := s.takeWhile fun c => !isE c
  match s.dropWhile fun c => !isE c, cut? ['.'] mantissa with
  | [], none => none
  | [], some (whole, fraction) => fractional? whole fraction 0
  | _ :: e, none => return ⟨← decimalDigits? mantissa, ← exponent? e⟩
  | _ :: e, some (whole, fraction) => fractional? whole fraction (← exponent? e)
where
  /-- The number with some digits behind the point. -/
  fractional? (whole fraction : List Char) (e : Int) : Option Decimal := do
    let fraction ← digits? Char.isDigit fraction
    return ⟨(← decimalDigits? whole) ++ fraction, e - fraction.length⟩

/-- The least number whose nearest double is infinite: half a step above the greatest double. -/
def overflowBound : Nat := Nat.pow 2 1024 - Nat.pow 2 970

/-- Whether the nearest double to a number is finite.  The number lies between two powers of ten
that the count of its digits tells, and only near the bound has it to be computed. -/
def Decimal.isFinite (d : Decimal) : Bool :=
  let digits := d.digits.dropWhile (· = '0')
  let top : Int := digits.length + d.exponent
  if digits = [] || top ≤ 308 then true
  else if 310 ≤ top then false
  else
    match d.exponent with
    | .ofNat e => digitsValue digits * Nat.pow 10 e < overflowBound
    | .negSucc e => digitsValue digits < overflowBound * Nat.pow 10 (e + 1)

/-- Whether a run is a number with a fraction or an exponent that a double can hold. -/
def isFloat (s : List Char) : Bool :=
  let s := (splitSign s).2
  s = ['i', 'n', 'f'] || s = ['n', 'a', 'n'] || ((decimal? s).map Decimal.isFinite).getD false

/-! ## Dates and times -/

/-- The value of exactly `n` digits at the front of a text. -/
def fixedDigits? (n : Nat) (s : List Char) : Option (Nat × List Char) :=
  let digits := s.take n
  if digits.length = n && digits.all Char.isDigit then some (digitsValue digits, s.drop n) else none

/-- The number of days of a month. -/
def daysIn (year month : Nat) : Nat :=
  if month = 2 then (if year % 4 = 0 && (year % 100 ≠ 0 || year % 400 = 0) then 29 else 28)
  else if month ∈ [4, 6, 9, 11] then 30 else 31

/-- The text behind a date. -/
def afterDate? (s : List Char) : Option (List Char) := do
  let (year, s) ← fixedDigits? 4 s
  let (month, s) ← fixedDigits? 2 (← afterPrefix? ['-'] s)
  let (day, s) ← fixedDigits? 2 (← afterPrefix? ['-'] s)
  if 1 ≤ month && month ≤ 12 && 1 ≤ day && day ≤ daysIn year month then some s else none

/-- The text behind a time of day, whose seconds may be left out. -/
def afterTime? (s : List Char) : Option (List Char) := do
  let (hour, s) ← fixedDigits? 2 s
  let (minute, s) ← fixedDigits? 2 (← afterPrefix? [':'] s)
  if 23 < hour || 59 < minute then none
  else
    match s with
    | ':' :: s => do
      let (second, s) ← fixedDigits? 2 s
      if 60 < second then none
      else
        match s with
        | '.' :: s =>
          if s.takeWhile Char.isDigit = [] then none else some (s.dropWhile Char.isDigit)
        | s => some s
    | s => some s

/-- Whether a text is an offset from universal time, or nothing. -/
def isOffset (s : List Char) : Bool :=
  match s with
  | [] => true
  | ['Z'] => true
  | ['z'] => true
  | sign :: s =>
    (sign = '+' || sign = '-') &&
      match fixedDigits? 2 s with
      | some (hour, ':' :: s) =>
        match fixedDigits? 2 s with
        | some (minute, []) => hour ≤ 23 && minute ≤ 59
        | _ => false
      | _ => false

/-- Whether a run is a date, a time, or both with `T` or a space between. -/
def isDateTime (s : List Char) : Bool :=
  match afterDate? s with
  | some [] => true
  | some (c :: r) =>
    (c = 'T' || c = 't' || c = ' ') && ((afterTime? r).map isOffset).getD false
  | none => afterTime? s = some []

/-! ## Other scalars -/

/-- Whether a character may stand in a scalar that is no string. -/
def isScalarChar (c : Char) : Bool :=
  c.isAlphanum || c ∈ ['_', '+', '-', '.', ':']

/-- The value that a run of such characters denotes. -/
def scalar? (s : List Char) : Option Value :=
  if s = "true".toList then some (.boolean true)
  else if s = "false".toList then some (.boolean false)
  else
    match integer? s with
    | some n => some (.integer n)
    | none => if isFloat s then some .float else if isDateTime s then some .dateTime else none

/-- Reads a scalar that is no string.  A date may be followed by a space and a time. -/
def readScalar (s : List Char) : Option (Value × List Char) :=
  let run := s.takeWhile isScalarChar
  match s.dropWhile isScalarChar with
  | ' ' :: c :: r =>
    if afterDate? run = some [] && c.isDigit then
      let time := (c :: r).takeWhile isScalarChar
      (scalar? (run ++ ' ' :: time)).map fun v => (v, (c :: r).dropWhile isScalarChar)
    else (scalar? run).map fun v => (v, ' ' :: c :: r)
  | rest => (scalar? run).map fun v => (v, rest)

end AndroidFonts.Toml
