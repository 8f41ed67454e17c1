/-
# `AndroidFonts.Proofs.Xml.Grammar` — well-formed documents and their trees

Which texts are XML with namespaces, and which tree of elements such a text stands for, said without a
reader.  A document is put together from pieces, and each kind of piece is a relation between a text
and what it means: names, references, values in quotes, tags, text, literal sections, comments and
processing instructions.  `Markup` is a row of pieces with the elements in it, and `Document` a whole
text with its root element.

One tree has many texts.  White space, quotes, the order of attributes, the qualifier that a namespace
is bound to, comments, instructions and the text between tags are all in the pieces and not in the tree.

There is no document type, so the only entities are the five that need none.  The qualifier `xml` is
bound without a declaration; it is for attributes, since no element has a name in that namespace.
-/
import AndroidFonts.Xml.Element
import Mathlib.Data.List.Forall2

namespace AndroidFonts.Xml

/-! ## Names -/

/-- White space, or nothing. -/
def Spaces (s : List Char) : Prop := ∀ c ∈ s, isSpace c = true

/-- A text of characters that may stand in a document. -/
def Legal (s : List Char) : Prop := ∀ c ∈ s, isLegal c = true

instance (s : List Char) : Decidable (Spaces s) := List.decidableBAll _ _

instance (s : List Char) : Decidable (Legal s) := List.decidableBAll _ _

/-- A name as it is written. -/
inductive NameText : List Char → Name → Prop
  | plain {w : List Char} : isNamePart w = true → NameText w ⟨"", String.ofList w⟩
  | qualified {q w : List Char} : isNamePart q = true → isNamePart w = true →
      NameText (q ++ ':' :: w) ⟨String.ofList q, String.ofList w⟩

/-! ## Values -/

/-- Whether some digits give the code point of a character. -/
structure IsCode (base : Nat) (digit? : Char → Option Nat) (w : List Char) (c : Char) : Prop where
  ne_nil : w ≠ []
  digits : ∀ d ∈ w, (digit? d).isSome = true
  value : w.foldl (fun n d => base * n + (digit? d).getD 0) 0 = c.toNat
  legal : isLegal c = true

/-- A reference to a character, from behind its ampersand. -/
inductive Reference : List Char → Char → Prop
  | quot : Reference "quot;".toList '"'
  | amp : Reference "amp;".toList '&'
  | apos : Reference "apos;".toList '\''
  | lt : Reference "lt;".toList '<'
  | gt : Reference "gt;".toList '>'
  | decimal {w : List Char} {c : Char} : IsCode 10 decimalDigit? w c →
      Reference ('#' :: (w ++ [';'])) c
  | hexadecimal {w : List Char} {c : Char} : IsCode 16 hexDigit? w c →
      Reference ('#' :: 'x' :: (w ++ [';'])) c

/-- The value that a text between quotes denotes.  References stand for their characters, and a line
break or a tab that is written as such stands for a space. -/
inductive Denotes : List Char → List Char → Prop
  | nil : Denotes [] []
  | plain {c : Char} {s value : List Char} : c ≠ '&' → isSpace c = false → Denotes s value →
      Denotes (c :: s) (c :: value)
  | space {c : Char} {s value : List Char} : isSpace c = true → (c = '\r' → s.head? ≠ some '\n') →
      Denotes s value → Denotes (c :: s) (' ' :: value)
  | lineBreak {s value : List Char} : Denotes s value → Denotes ('\r' :: '\n' :: s) (' ' :: value)
  | reference {w s value : List Char} {c : Char} : Reference w c → Denotes s value →
      Denotes ('&' :: (w ++ s)) (c :: value)

/-- An equals sign and a text in quotes, which may be of either kind. -/
inductive QuotedText : List Char → List Char → Prop
  | mk {before behind raw : List Char} {quote : Char} : Spaces before → Spaces behind →
      quote = '"' ∨ quote = '\'' → Legal raw → '<' ∉ raw → quote ∉ raw →
      QuotedText (before ++ '=' :: (behind ++ quote :: (raw ++ [quote]))) raw

/-- An attribute. -/
inductive AttributeText : List Char → RawAttribute → Prop
  | mk {w q raw value : List Char} {name : Name} : NameText w name → QuotedText q raw →
      Denotes raw value → AttributeText (w ++ q) ⟨name, String.ofList value⟩

/-- Attributes in a row, each behind white space. -/
inductive AttributesText : List Char → List RawAttribute → Prop
  | nil : AttributesText [] []
  | cons {gap w s : List Char} {a : RawAttribute} {as : List RawAttribute} : Spaces gap → gap ≠ [] →
      AttributeText w a → AttributesText s as → AttributesText (gap ++ (w ++ s)) (a :: as)

/-! ## Namespaces -/

/-- The bindings that attributes declare.  That of `xml` is always there. -/
def declared (raw : List RawAttribute) : Scope :=
  (raw.filter fun a => a.name.qualifier = "xmlns" && a.name.localName ≠ "xml").map fun a =>
    (a.name.localName, a.value)

/-- Whether an attribute declares nothing that may not be declared: the namespaces of `xml` and of
declarations are bound as they are and not otherwise. -/
structure RawAttribute.Allowed (a : RawAttribute) : Prop where
  qualified : a.name.qualifier = "xmlns" →
    a.value ≠ xmlnsUri ∧ (a.name.localName = "xml" ↔ a.value = xmlUri)
  default : a.name.localName = "xmlns" →
    a.name.qualifier = "" ∧ a.value ≠ xmlUri ∧ a.value ≠ xmlnsUri

/-- An attribute as it is written, and with its namespace. -/
inductive Resolves (scope : Scope) : RawAttribute → Attribute → Prop
  | plain {n value : String} : Resolves scope ⟨⟨"", n⟩, value⟩ ⟨none, n, value⟩
  | xml {n value : String} : Resolves scope ⟨⟨"xml", n⟩, value⟩ ⟨some xmlUri, n, value⟩
  | bound {q n value uri : String} : q ≠ "" → q ≠ "xml" → scope.lookup q = some uri →
      Resolves scope ⟨⟨q, n⟩, value⟩ ⟨some uri, n, value⟩

/-- What a start tag means between the bindings outside of it and those inside: the declarations among
its attributes are added, the other attributes are given their namespaces, and none is there twice. -/
structure TagMeans (outer : Scope) (name : Name) (raw : List RawAttribute) (scope : Scope)
    (attributes : List Attribute) : Prop where
  nodup : (raw.map (·.name)).Nodup
  allowed : ∀ a ∈ raw, a.Allowed
  scope_eq : scope = declared raw ++ outer
  resolved : List.Forall₂ (Resolves scope) (raw.filter fun a => !a.isDeclaration) attributes
  expanded_nodup : (attributes.map fun a => (a.namespaceUri, a.localName)).Nodup
  name_ne : name.qualifier ≠ "xmlns"
  name_bound : name.qualifier = "" ∨ (scope.lookup name.qualifier).isSome = true

/-! ## Markup -/

/-- What stands between the brackets of a start tag. -/
inductive TagText : List Char → Name → List RawAttribute → Prop
  | mk {w s gap : List Char} {name : Name} {raw : List RawAttribute} : NameText w name →
      AttributesText s raw → Spaces gap → TagText (w ++ (s ++ gap)) name raw

/-- Text between tags. -/
structure TextRun (s : List Char) : Prop where
  ne_nil : s ≠ []
  legal : Legal s
  no_tag : '<' ∉ s
  no_mark : ¬ "]]>".toList <:+: s
  references : ∃ value, Denotes s value

/-- A comment or a processing instruction. -/
inductive RemarkText : List Char → Prop
  | comment {s : List Char} : Legal s → ¬ "--".toList <:+: s → s.getLast? ≠ some '-' →
      RemarkText ("<!--".toList ++ (s ++ "-->".toList))
  | instruction {target s : List Char} : isNamePart target = true →
      target.map Char.toLower ≠ "xml".toList → Legal s → ¬ "?>".toList <:+: s →
      (∀ c, s.head? = some c → isSpace c = true) →
      RemarkText ("<?".toList ++ (target ++ (s ++ "?>".toList)))

/-- A row of markup with the elements in it, inside of an element or outside of all.  The scope is that
of the place.  Text is taken as a whole, so that none follows it; outside there is only white space, and
no literal section. -/
inductive Markup : Bool → Scope → List Char → List Element → Prop
  | nil {inside : Bool} {outer : Scope} : Markup inside outer [] []
  | text {inside : Bool} {outer : Scope} {w s : List Char} {es : List Element} : TextRun w →
      (inside = false → Spaces w) → (∀ c, s.head? = some c → c = '<') → Markup inside outer s es →
      Markup inside outer (w ++ s) es
  | literal {outer : Scope} {w s : List Char} {es : List Element} : Legal w →
      ¬ "]]>".toList <:+: w → Markup true outer s es →
      Markup true outer ("<![CDATA[".toList ++ (w ++ ("]]>".toList ++ s))) es
  | remark {inside : Bool} {outer : Scope} {w s : List Char} {es : List Element} : RemarkText w →
      Markup inside outer s es → Markup inside outer (w ++ s) es
  | closed {inside : Bool} {outer scope : Scope} {w s : List Char} {name : Name}
      {raw : List RawAttribute} {attributes : List Attribute} {es : List Element} :
      TagText w name raw → TagMeans outer name raw scope attributes → Markup inside outer s es →
      Markup inside outer ('<' :: (w ++ '/' :: '>' :: s))
        (.mk name.localName scope attributes [] :: es)
  | nested {inside : Bool} {outer scope : Scope} {w body v gap s : List Char} {name : Name}
      {raw : List RawAttribute} {attributes : List Attribute} {children es : List Element} :
      TagText w name raw → TagMeans outer name raw scope attributes →
      Markup true scope body children → NameText v name → Spaces gap → Markup inside outer s es →
      Markup inside outer ('<' :: (w ++ '>' :: (body ++ '<' :: '/' :: (v ++ (gap ++ '>' :: s)))))
        (.mk name.localName scope attributes children :: es)

/-! ## Documents -/

/-- A field of the declaration at the front of a document. -/
inductive FieldText (name : List Char) : List Char → Prop
  | mk {gap q raw : List Char} : Spaces gap → gap ≠ [] → QuotedText q raw →
      (∀ c ∈ raw, isNameChar c = true) → FieldText name (gap ++ (name ++ q))

/-- The declaration at the front of a document: a version, and behind it an encoding and a note on
other documents, both of which may be missing. -/
inductive DeclarationText : List Char → Prop
  | mk {version encoding standalone gap : List Char} : FieldText "version".toList version →
      encoding = [] ∨ FieldText "encoding".toList encoding →
      standalone = [] ∨ FieldText "standalone".toList standalone → Spaces gap →
      DeclarationText ("<?xml".toList ++ (version ++ (encoding ++ (standalone ++ (gap ++ "?>".toList)))))

/-- A well-formed document with its root element.  In front there may be a byte order mark and a
declaration; around the root there may be comments, instructions and white space. -/
inductive Document (text : String) (root : Element) : Prop
  | mk {mark declaration body : List Char} : text.toList = mark ++ (declaration ++ body) →
      mark = [] ∨ mark = ['\ufeff'] → declaration = [] ∨ DeclarationText declaration →
      Markup false [] body [root] → Document text root

end AndroidFonts.Xml
