/-
# `AndroidFonts.Descriptor.Json` — the entries of a descriptor as JSON

An array of objects, each member on a line of its own and indented by two spaces a level.  In a
string, quotes, backslashes and control characters are escaped; everything else stands for itself.
-/
import AndroidFonts.Descriptor.Basic

namespace AndroidFonts

namespace Json

/-- A character as it stands in a string. -/
def escapeChar (c : Char) : List Char :=
  match c with
  | '"' => ['\\', '"']
  | '\\' => ['\\', '\\']
  | '\x08' => ['\\', 'b']
  | '\x0c' => ['\\', 'f']
  | '\n' => ['\\', 'n']
  | '\r' => ['\\', 'r']
  | '\t' => ['\\', 't']
  | c =>
    if c.toNat < 0x20 then
      ['\\', 'u', '0', '0', Nat.digitChar (c.toNat / 16), Nat.digitChar (c.toNat % 16)]
    else [c]

/-- A text as a string. -/
def quote (s : String) : String :=
  "\"" ++ String.ofList (s.toList.flatMap escapeChar) ++ "\""

end Json

namespace FontEntry

/-- An entry as an object inside an array. -/
def toJson (e : FontEntry) : String :=
  "  \x7b\n    \"style\": " ++ Json.quote e.style.name ++ ",\n    \"weight\": " ++
    toString e.weight ++ ",\n    \"font_ref\": " ++ Json.quote e.fontRef ++ "\n  \x7d"

end FontEntry

namespace Descriptor

/-- The entries as an array. -/
def entriesJson (d : Descriptor) : String :=
  if d.entries = [] then "[]"
  else "[\n" ++ ",\n".intercalate (d.entries.map (·.toJson)) ++ "\n]"

end Descriptor

end AndroidFonts
