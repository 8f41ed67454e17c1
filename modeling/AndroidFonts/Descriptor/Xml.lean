/-
# `AndroidFonts.Descriptor.Xml` — descriptors as resource XML

A descriptor is written with one `font` element per entry, its three attributes in a fixed order.
It is read from any well-formed text whose root is a `font-family`: attributes are looked up in the
namespace that the root binds to `app`, whatever qualifier they are written with.
-/
import AndroidFonts.Descriptor.Basic
import AndroidFonts.Text.Numeral
import AndroidFonts.Unicode.Blank
import AndroidFonts.Xml.Element

namespace AndroidFonts

/-- Why a text is no descriptor.  Fonts are counted from zero. -/
inductive DescriptorError where
  | malformed
  | missingRoot
  | missingAttribute (index : Nat) (name : String)
  | invalidWeight (index : Nat) (value : String)
  | invalidStyle (index : Nat) (value : String)
deriving Repr, DecidableEq

namespace DescriptorError

def message : DescriptorError → String
  | .malformed => "malformed XML: the text is not well-formed"
  | .missingRoot => "no <font-family> element found"
  | .missingAttribute i name => s!"<font> element {i} is missing attribute {name}"
  | .invalidWeight i value => s!"<font> element {i} has invalid weight '{value}'"
  | .invalidStyle i value => s!"<font> element {i} has invalid style '{value}'"

end DescriptorError

/-- How a descriptor is laid out. -/
structure DescriptorFormat where
  /-- What stands before each font. -/
  indent : String
  /-- Whether the text starts with an XML declaration. -/
  declaration : Bool
deriving Repr, DecidableEq

namespace DescriptorFormat

/-- Two spaces, and a declaration. -/
def standard : DescriptorFormat := ⟨"  ", true⟩

/-- A character as it stands in an attribute value. -/
def escapeChar : Char → List Char
  | '&' => "&amp;".toList
  | '<' => "&lt;".toList
  | '>' => "&gt;".toList
  | '"' => "&quot;".toList
  | '\'' => "&apos;".toList
  | c => [c]

/-- A text as it stands in an attribute value. -/
def escape (s : String) : String :=
  String.ofList (s.toList.flatMap escapeChar)

/-- The line of one font. -/
def fontLine (f : DescriptorFormat) (e : FontEntry) : String :=
  f.indent ++ "<font app:fontStyle=\"" ++ e.style.name ++ "\" app:fontWeight=\"" ++
    toString e.weight ++ "\" app:font=\"" ++ escape e.fontRef ++ "\"/>\n"

/-- A descriptor as text, which ends with a line break. -/
def write (f : DescriptorFormat) (d : Descriptor) : String :=
  let head := if f.declaration then "<?xml version=\"1.0\" encoding=\"utf-8\"?>\n" else ""
  let root := head ++ "<font-family xmlns:app=\"" ++ escape d.namespaceUri ++ "\""
  if d.entries = [] then root ++ "/>\n"
  else root ++ ">\n" ++ String.join (d.entries.map f.fontLine) ++ "</font-family>\n"

end DescriptorFormat

namespace Descriptor

/-- A descriptor in the standard layout. -/
def toXml (d : Descriptor) : String := DescriptorFormat.standard.write d

/-- The weight an attribute value denotes. -/
def readWeight? (value : String) : Option Nat :=
  Text.readNat16? (Unicode.trim value.toList)

/-- The entry of a `font` element. -/
def readEntry (namespaceUri : String) (index : Nat) (e : Xml.Element) :
    Except DescriptorError FontEntry := do
  let get (name : String) : Except DescriptorError String :=
    match e.attribute? namespaceUri name with
    | some value => .ok value
    | none => .error (.missingAttribute index ("app:" ++ name))
  let styleText ← get "fontStyle"
  let some style := FontStyle.ofName? (String.ofList (Unicode.trim styleText.toList))
    | throw (.invalidStyle index styleText)
  let weightText ← get "fontWeight"
  let some weight := readWeight? weightText
    | throw (.invalidWeight index weightText)
  return ⟨style, weight, ← get "font"⟩

/-- The descriptor of some `font` elements, the first of which has the number `index`. -/
def readEntries (d : Descriptor) : Nat → List Xml.Element → Except DescriptorError Descriptor
  | _, [] => .ok d
  | index, e :: es => do
    (d.upsert (← readEntry d.namespaceUri index e)).readEntries (index + 1) es

/-- The descriptor whose root element is given. -/
def ofElement (root : Xml.Element) : Except DescriptorError Descriptor :=
  if root.localName ≠ "font-family" then .error .missingRoot
  else
    let namespaceUri := (root.scope.lookup "app").getD resAutoUri
    readEntries ⟨namespaceUri, []⟩ 0 (root.children.filter (·.localName = "font"))

/-- The descriptor a text holds. -/
def ofXml (text : String) : Except DescriptorError Descriptor :=
  match Xml.parse? text with
  | none => .error .malformed
  | some root => ofElement root

end Descriptor

end AndroidFonts
