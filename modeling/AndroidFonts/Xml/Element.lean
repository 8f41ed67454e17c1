/-
# `AndroidFonts.Xml.Element` — XML documents as trees of elements

A document is its root element; text, comments and instructions are dropped.  Names are resolved
against the namespaces in scope.  `Element.ofTokens?` builds the tree with a stack of open elements
and gives none where the tokens are not nested as elements, where a qualifier is not bound, or where
an element has an attribute twice.
-/
import AndroidFonts.Xml.Token

namespace AndroidFonts.Xml

/-- An attribute with its namespace, which only a qualified name has. -/
structure Attribute where
  namespaceUri : Option String
  localName : String
  value : String
deriving Repr, DecidableEq

/-- Bindings of qualifiers to namespaces, the innermost first. -/
abbrev Scope := List (String × String)

inductive Element where
  | mk (localName : String) (scope : Scope) (attributes : List Attribute)
      (children : List Element)
deriving Repr

namespace Element

def localName : Element → String
  | .mk name _ _ _ => name

def scope : Element → Scope
  | .mk _ scope _ _ => scope

def attributes : Element → List Attribute
  | .mk _ _ attributes _ => attributes

/-- The elements directly inside. -/
def children : Element → List Element
  | .mk _ _ _ children => children

/-- The value of the attribute with this namespace and name. -/
def attribute? (e : Element) (namespaceUri localName : String) : Option String :=
  (e.attributes.find? fun a =>
    a.namespaceUri = some namespaceUri && a.localName = localName).map (·.value)

end Element

/-- The namespace that the qualifier `xml` stands for, and nothing else does. -/
def xmlUri : String := "http://www.w3.org/XML/1998/namespace"

/-- The namespace of declarations, which nothing can be bound to. -/
def xmlnsUri : String := "http://www.w3.org/2000/xmlns/"

/-- The bindings that the attributes of an element declare; none if a declaration is not allowed.
A default namespace is only checked, since it is never asked for. -/
def bindings? : List RawAttribute → Option Scope
  | [] => some []
  | a :: as => do
    let rest ← bindings? as
    if a.name.qualifier = "xmlns" then
      if a.value = xmlnsUri then none
      else if a.name.localName = "xml" then
        if a.value = xmlUri then some rest else none
      else if a.value = xmlUri then none
      else some ((a.name.localName, a.value) :: rest)
    else if a.name.localName = "xmlns" then
      if a.value = xmlUri || a.value = xmlnsUri then none else some rest
    else some rest

/-- Whether an attribute declares a namespace. -/
def RawAttribute.isDeclaration (a : RawAttribute) : Bool :=
  a.name.qualifier = "xmlns" || a.name.localName = "xmlns"

/-- An attribute with its namespace looked up; none if the qualifier is not bound. -/
def resolve? (scope : Scope) (a : RawAttribute) : Option Attribute :=
  if a.name.qualifier = "" then some ⟨none, a.name.localName, a.value⟩
  else if a.name.qualifier = "xml" then some ⟨some xmlUri, a.name.localName, a.value⟩
  else (scope.lookup a.name.qualifier).map fun uri => ⟨some uri, a.name.localName, a.value⟩

/-- The element a start tag opens, still without children. -/
def Element.open? (outer : Scope) (name : Name) (raw : List RawAttribute) : Option Element := do
  let own ← bindings? raw
  let scope := own ++ outer
  let attributes ← (raw.filter fun a => !a.isDeclaration).mapM (resolve? scope)
  if decide (own.map (·.1)).Nodup &&
      decide (attributes.map fun a => (a.namespaceUri, a.localName)).Nodup &&
      name.qualifier ≠ "xmlns" &&
      (name.qualifier = "" || (scope.lookup name.qualifier).isSome) then
    some (.mk name.localName scope attributes [])
  else none

/-- An element that is being read: its name as written, and itself with its children so far, the
latest first. -/
structure OpenElement where
  name : Name
  element : Element
deriving Repr

/-- Adds a child to an element that is being read. -/
def OpenElement.addChild (o : OpenElement) (child : Element) : OpenElement :=
  match o.element with
  | .mk name scope attributes children =>
    { o with element := .mk name scope attributes (child :: children) }

/-- The finished element. -/
def OpenElement.close (o : OpenElement) : Element :=
  match o.element with
  | .mk name scope attributes children => .mk name scope attributes children.reverse

/-- What has been read: the root if it is finished, and the open elements, the innermost first. -/
structure TreeBuilder where
  root : Option Element
  stack : List OpenElement
deriving Repr

namespace TreeBuilder

/-- Puts a finished element where it belongs: into the innermost open one, or at the root. -/
def place (b : TreeBuilder) (e : Element) : Option TreeBuilder :=
  match b.stack with
  | o :: outer => some { b with stack := o.addChild e :: outer }
  | [] => if b.root.isSome then none else some { b with root := some e }

/-- The bindings in scope inside the innermost open element. -/
def scope (b : TreeBuilder) : Scope :=
  match b.stack with
  | o :: _ => o.element.scope
  | [] => []

/-- Takes in one token.  Outside the root there is only blank text beside comments and
instructions. -/
def step (b : TreeBuilder) : Token → Option TreeBuilder
  | .remark => some b
  | .text raw => if b.stack.isEmpty && !raw.all isSpace then none else some b
  | .literal => if b.stack.isEmpty then none else some b
  | .startTag name attributes closed => do
    if b.stack.isEmpty && b.root.isSome then none
    else
      let e ← Element.open? b.scope name attributes
      if closed then b.place e else some { b with stack := ⟨name, e⟩ :: b.stack }
  | .endTag name =>
    match b.stack with
    | [] => none
    | o :: outer =>
      if o.name = name then place { b with stack := outer } o.close else none

/-- The root, once it is closed. -/
def finish (b : TreeBuilder) : Option Element :=
  if b.stack.isEmpty then b.root else none

end TreeBuilder

/-- The tree of a row of tokens. -/
def Element.ofTokens? (ts : List Token) : Option Element :=
  (ts.foldlM TreeBuilder.step ⟨none, []⟩).bind TreeBuilder.finish

/-- The root element of an XML text; none if the text is not well-formed. -/
def parse? (text : String) : Option Element := do
  Element.ofTokens? (← tokens? text.toList)

end AndroidFonts.Xml
