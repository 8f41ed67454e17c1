/-
# `AndroidFonts.Command.Transcript` — what the program prints

A transcript keeps the order of what is printed to the two streams.  A failure that ends the program
is printed with its causes, the nearest first: every line of a cause is indented, and several causes
are numbered.
-/
import AndroidFonts.Text.Lines

namespace AndroidFonts.Command

/-- A text on one of the two streams. -/
inductive Chunk where
  | out (text : String)
  | err (text : String)
deriving Repr, DecidableEq

namespace Chunk

def outText : Chunk → String
  | .out text => text
  | .err _ => ""

def errText : Chunk → String
  | .out _ => ""
  | .err text => text

/-- A line on the first stream. -/
def line (text : String) : Chunk := .out (text ++ "\n")

/-- A line on the second stream. -/
def errLine (text : String) : Chunk := .err (text ++ "\n")

/-- An empty line on the first stream. -/
def blank : Chunk := .out "\n"

end Chunk

/-- How a run of the program ends, and what it prints before. -/
structure RunReport where
  code : Nat
  transcript : List Chunk
deriving Repr, DecidableEq

namespace RunReport

/-- What is printed to the first stream. -/
def output (r : RunReport) : String := String.join (r.transcript.map (·.outText))

/-- What is printed to the second stream. -/
def errors (r : RunReport) : String := String.join (r.transcript.map (·.errText))

/-- The report with something printed before it. -/
def after (earlier : List Chunk) (r : RunReport) : RunReport :=
  { r with transcript := earlier ++ r.transcript }

end RunReport

/-- A failure that ends the program. -/
structure Fatal where
  text : String
  /-- What it comes from, the nearest cause first. -/
  causes : List String
deriving Repr, DecidableEq

namespace Fatal

/-- A text with an indentation in front of its lines, the first of which has one of its own. -/
def indented (first others : String) (text : String) : String :=
  first ++ ("\n" ++ others).intercalate ((Text.splitOn '\n' text.toList).map String.ofList)

/-- The causes as lines. -/
def renderCauses : List String → String
  | [] => ""
  | [cause] => "\nCaused by:\n" ++ indented "    " "    " cause ++ "\n"
  | causes =>
    "\nCaused by:\n" ++ String.join (causes.zipIdx.map fun (cause, i) =>
      indented ("    " ++ toString i ++ ": ") "       " cause ++ "\n")

def render (f : Fatal) : String := "Error: " ++ f.text ++ "\n" ++ renderCauses f.causes

/-- The end of a program that failed. -/
def report (f : Fatal) : RunReport := ⟨1, [.err f.render]⟩

end Fatal

end AndroidFonts.Command
