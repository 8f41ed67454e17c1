/-
# `AndroidFonts.Command.Options` — arguments as options and words

A command's shape says which options it has and how many words it takes.  An option is written
`--long` or `-s`; its value follows as the next argument, or in the same one, with or without `=`.
Options without value may share one dash.  After `--` everything is a word.

Reading goes from left to right and ends at the first argument that has no place in the command.
What was read is looked at in the same order, except that such an argument is reported before the
values and words directly in front of it, which may still be incomplete (`Reading.settled`).
-/
import AndroidFonts.Text.Control

namespace AndroidFonts.Command

/-- An option of a command. -/
structure OptionSpec where
  long : String
  short : Option Char
  /-- What its value is called; none if it takes no value. -/
  placeholder : Option String
deriving Repr, DecidableEq

/-- An option as it is shown. -/
def OptionSpec.display (o : OptionSpec) : String :=
  match o.placeholder with
  | none => "--" ++ o.long
  | some name => "--" ++ o.long ++ " <" ++ name ++ ">"

/-- What a command takes. -/
structure Shape where
  options : List OptionSpec
  /-- The largest number of words; none if there is no limit. -/
  maxWords : Option Nat
  /-- Whether a word may be a negative number. -/
  negativeNumbers : Bool
deriving Repr, DecidableEq

/-- Why arguments make no sense. -/
inductive UsageError where
  | missingCommand
  | unknownCommand (name : String)
  | unexpected (argument : String)
  /-- An option without value was given one. -/
  | unexpectedValue (value argument : String)
  | missingValue (argument : String)
  | repeated (argument : String)
  | missingArgument (argument : String)
  | invalidValue (value argument reason : String)
deriving Repr, DecidableEq

/-- A text that stands out on a terminal. -/
def emphasized (text : String) : String := "\x1b[1m" ++ text ++ "\x1b[0m"

namespace UsageError

/-- What is wrong, for a terminal. -/
def message : UsageError → String
  | .missingCommand => "a command is required"
  | .unknownCommand name => s!"unrecognized subcommand '{emphasized name}'"
  | .unexpected argument => s!"unexpected argument '{emphasized argument}' found"
  | .unexpectedValue value argument =>
    s!"unexpected value '{emphasized value}' for '{emphasized argument}' found; " ++
      "no more were expected"
  | .missingValue argument =>
    s!"a value is required for '{emphasized argument}' but none was supplied"
  | .repeated argument =>
    s!"the argument '{emphasized argument}' cannot be used multiple times"
  | .missingArgument argument => s!"the required argument {emphasized argument} was not provided"
  | .invalidValue value argument reason =>
    s!"invalid value '{emphasized value}' for '{emphasized argument}': {reason}"

/-- What is printed about it, for a terminal. -/
def report (e : UsageError) : String :=
  emphasized "error:" ++ " " ++ e.message ++ "\n\nFor more information, try '" ++
    emphasized "--help" ++ "'.\n"

/-- What is printed about it where there is no terminal: the arguments it quotes lose their control
sequences with the rest of the text. -/
def plainReport (e : UsageError) : String :=
  String.ofList (Text.withoutControls e.report.toList)

end UsageError

/-- One option or word. -/
inductive Item where
  | flag (option : OptionSpec)
  /-- An option with its value, which may be an argument of its own. -/
  | value (option : OptionSpec) (text : String) (apart : Bool)
  | word (text : String)
deriving Repr, DecidableEq

/-- What an argument leaves to be done. -/
inductive Rest where
  | done
  /-- The next argument is the value of an option. -/
  | awaits (option : OptionSpec)
  | fails (e : UsageError)
deriving Repr, DecidableEq

/-- Reads options that share one dash. -/
def readShort (s : Shape) : List Char → List Item × Rest
  | [] => ([], .done)
  | c :: cs =>
    match s.options.find? (·.short = some c) with
    | none => ([], .fails (.unexpected (String.ofList ['-', c])))
    | some o =>
      if o.placeholder = none then
        let (items, rest) := readShort s cs
        (.flag o :: items, rest)
      else
        match cs with
        | [] => ([], .awaits o)
        | '=' :: text => ([.value o (String.ofList text) false], .done)
        | text => ([.value o (String.ofList text) false], .done)

/-- Reads an option by its long name, with a value if there is one. -/
def readLong (s : Shape) (name : List Char) (value : Option String) : List Item × Rest :=
  match s.options.find? (·.long.toList = name) with
  | none => ([], .fails (.unexpected ("--" ++ String.ofList name)))
  | some o =>
    match o.placeholder, value with
    | none, none => ([.flag o], .done)
    | none, some text => ([], .fails (.unexpectedValue text o.display))
    | some _, none => ([], .awaits o)
    | some _, some text => ([.value o text false], .done)

/-- Reads what follows a dash: options that share it, or after a second dash a long name. -/
def readOption (s : Shape) : List Char → List Item × Rest
  | '-' :: cs =>
    match cs.dropWhile (· ≠ '=') with
    | [] => readLong s cs none
    | _ :: text => readLong s (cs.takeWhile (· ≠ '=')) (some (String.ofList text))
  | cs => readShort s cs

/-- Whether the text after a dash makes a number of it: digits, with a dot or an exponent after the
first one. -/
def isNumberText (cs : List Char) : Bool :=
  let mantissa := cs.takeWhile fun c => c ≠ 'e' && c ≠ 'E'
  let exponent := cs.dropWhile fun c => c ≠ 'e' && c ≠ 'E'
  (mantissa.head?.any Char.isDigit) && (mantissa.filter (· ≠ '.')).all Char.isDigit &&
    mantissa.count '.' ≤ 1 && exponent ≠ ['e'] && exponent ≠ ['E'] &&
    (exponent.drop 1).all Char.isDigit

/-- Arguments that were read up to the end or to a failure. -/
structure Reading where
  items : List Item
  failure : Option UsageError
deriving Repr, DecidableEq

/-- An item in front of what was read. -/
def Reading.after (items : List Item) (r : Reading) : Reading := ⟨items ++ r.items, r.failure⟩

/-- Where reading stands. -/
structure Progress where
  /-- Whether all that follows is words. -/
  trailing : Bool
  /-- The number of words so far. -/
  words : Nat
  /-- The option whose value comes next. -/
  awaited : Option OptionSpec
deriving Repr, DecidableEq

/-- Whether a command takes one more word. -/
def Shape.takesWord (s : Shape) (words : Nat) : Bool :=
  match s.maxWords with
  | none => true
  | some limit => words < limit

/-- What follows the dash of an argument that is an option.  A dash alone is a word, and so may a
negative number be. -/
def Shape.optionText? (s : Shape) (p : Progress) (argument : String) : Option (List Char) :=
  match argument.toList with
  | '-' :: c :: cs =>
    if s.negativeNumbers && s.takesWord p.words && isNumberText (c :: cs) then none
    else some (c :: cs)
  | _ => none

/-- Reads arguments. -/
def read (s : Shape) : Progress → List String → Reading
  | p, [] => ⟨[], p.awaited.map fun o => .missingValue o.display⟩
  | p, a :: rest =>
    match if p.trailing then none else s.optionText? p a with
    | some ['-'] => read s { p with trailing := true } rest
    | some text =>
      match p.awaited, readOption s text with
      | some o, _ => ⟨[], some (.missingValue o.display)⟩
      | none, (items, .done) => (read s p rest).after items
      | none, (items, .awaits o) => (read s { p with awaited := some o } rest).after items
      | none, (items, .fails e) => ⟨items, some e⟩
    | none =>
      match p.trailing, p.awaited with
      | false, some o => (read s { p with awaited := none } rest).after [.value o a true]
      | _, _ =>
        if s.takesWord p.words then
          (read s { p with words := p.words + 1 } rest).after [.word a]
        else ⟨[], some (.unexpected a)⟩

/-- The failures that are reported before what stands directly in front of them. -/
def UsageError.comesFirst : UsageError → Bool
  | .unexpected _ => true
  | .unexpectedValue .. => true
  | _ => false

/-- Items in reverse order without the ones that are still open: an option with a value apart, or
words. -/
def dropOpen : List Item → List Item
  | .value _ _ true :: rest => rest
  | items => items.dropWhile fun
    | .word _ => true
    | _ => false

/-- The items that are looked at before the failure is reported. -/
def Reading.settled (r : Reading) : List Item :=
  match r.failure with
  | some e => if e.comesFirst then (dropOpen r.items.reverse).reverse else r.items
  | none => r.items

/-- Looks at the items in order, from a state on.  The result is none if one of them asks for
help. -/
def Reading.evaluate {σ : Type} (help : OptionSpec) (accept : σ → Item → Except UsageError σ)
    (start : σ) (r : Reading) : Except UsageError (Option σ) := do
  let state ← (r.settled.takeWhile (· ≠ .flag help)).foldlM accept start
  if .flag help ∈ r.settled then return none
  match r.failure with
  | some e => throw e
  | none => return some state

end AndroidFonts.Command
