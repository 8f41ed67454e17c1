/-
# `AndroidFonts.Proofs.Descriptor.Layouts` — a descriptor is read whatever its layout is

What is read of a text is the namespace and the entries that its fonts carry, put in one after the
other (`ofXml_of_layout`).  The fonts are the elements of that name directly inside the root.  Nothing
else of the text has a part in it: not the fonts in other elements or in comments, not the order of
the attributes of a font, and not the qualifier that they are written with, as long as it is bound to
the namespace (`TagMeans.attribute?_of_mem`).

The namespace is the one that the root binds to `app`.  A font may bind other qualifiers to it, and
`app` to another one.
-/
import AndroidFonts.Proofs.Xml.Trees

namespace AndroidFonts

open Text

/-! ## Attributes -/

namespace Xml

variable {outer scope : Scope} {name : Name} {raw : List RawAttribute} {attributes : List Attribute}
  {a : RawAttribute} {uri : String}

theorem exists_resolved (h : List.Forall₂ (Resolves scope) raw attributes) (ha : a ∈ raw) :
    ∃ b ∈ attributes, Resolves scope a b := by
  induction h with
  | nil => nomatch ha
  | cons hab _ ih =>
    rcases List.mem_cons.1 ha with rfl | ha
    · exact ⟨_, List.mem_cons_self, hab⟩
    · obtain ⟨b, hb, hresolves⟩ := ih ha
      exact ⟨b, List.mem_cons_of_mem _ hb, hresolves⟩

/-- An attribute is found by its namespace and its name, if these stand only once. -/
theorem attribute?_of_nodup {b : Attribute} (hb : b ∈ attributes) (huri : b.namespaceUri = some uri)
    (hnodup : (attributes.map fun a => (a.namespaceUri, a.localName)).Nodup) (n : String)
    (children : List Element) :
    (Element.mk n scope attributes children).attribute? uri b.localName = some b.value := by
  have hfound : attributes.find? (fun a =>
      a.namespaceUri = some uri && a.localName = b.localName) = some b := by
    cases hfind : attributes.find? fun a =>
        a.namespaceUri = some uri && a.localName = b.localName with
    | none => exact absurd (List.find?_eq_none.1 hfind b hb) (by simp [huri])
    | some b' =>
      have hb' := List.find?_some hfind
      simp only [Bool.and_eq_true, decide_eq_true_eq] at hb'
      refine congrArg some (List.inj_on_of_nodup_map hnodup (List.mem_of_find?_eq_some hfind) hb ?_)
      rw [hb'.1, hb'.2, huri]
  show (attributes.find? fun a =>
    a.namespaceUri = some uri && a.localName = b.localName).map (·.value) = _
  rw [hfound]
  rfl

/-- An attribute of a tag is found wherever it stands in the tag and whatever qualifier it is written
with. -/
theorem TagMeans.attribute?_of_mem (h : TagMeans outer name raw scope attributes) (ha : a ∈ raw)
    (hdeclaration : a.isDeclaration = false) (hempty : a.name.qualifier ≠ "")
    (hxml : a.name.qualifier ≠ "xml") (huri : scope.lookup a.name.qualifier = some uri)
    (children : List Element) :
    (Element.mk name.localName scope attributes children).attribute? uri a.name.localName =
      some a.value := by
  obtain ⟨b, hb, hresolves⟩ := exists_resolved h.resolved
    (List.mem_filter.2 ⟨ha, by rw [hdeclaration]; rfl⟩)
  obtain rfl : b = ⟨some uri, a.name.localName, a.value⟩ := by
    cases hresolves with
    | plain => exact absurd rfl hempty
    | xml => exact absurd rfl hxml
    | bound _ _ huri' => rw [Option.some.inj (huri'.symm.trans huri)]
  exact attribute?_of_nodup hb rfl h.expanded_nodup name.localName children

end Xml

namespace Descriptor

variable {uri : String} {element root : Xml.Element} {e : FontEntry} {entries : List FontEntry}
  {elements : List Xml.Element} {d : Descriptor} {i : Nat}

/-- The namespace that the attributes of fonts are looked up in. -/
def fontUri (root : Xml.Element) : String := (root.scope.lookup "app").getD resAutoUri

/-- The fonts of a descriptor: elements of that name directly inside the root. -/
def fontsOf (root : Xml.Element) : List Xml.Element := root.children.filter (·.localName = "font")

/-- A weight as it may be written. -/
inductive WeightText : List Char → Nat → Prop
  | mk {sign digits : List Char} : sign = [] ∨ sign = ['+'] → digits ≠ [] →
      (∀ c ∈ digits, c.isDigit = true) → digitsValue digits < shortLimit →
      WeightText (sign ++ digits) (digitsValue digits)

/-- Whether an element carries an entry: the style and the weight may have white space around them. -/
structure Carries (uri : String) (element : Xml.Element) (e : FontEntry) : Prop where
  style : ∃ value, element.attribute? uri "fontStyle" = some value ∧
    Unicode.trim value.toList = e.style.name.toList
  weight : ∃ value, element.attribute? uri "fontWeight" = some value ∧
    WeightText (Unicode.trim value.toList) e.weight
  font : element.attribute? uri "font" = some e.fontRef

theorem readNat16?_of_weightText {s : List Char} {n : Nat} (h : WeightText s n) :
    readNat16? s = some n := by
  obtain ⟨hsign, hne, hdigits, hsize⟩ := h
  exact readNat16?_eq_some_iff.2 ⟨readNat?_of_digits hsign hne hdigits, hsize⟩

/-- What an element carries is read. -/
theorem Carries.readEntry (h : Carries uri element e) : readEntry uri i element = .ok e := by
  obtain ⟨style, hstyle, hname⟩ := h.style
  obtain ⟨weight, hweight, hvalue⟩ := h.weight
  refine readEntry_of_attributes hstyle ?_ hweight (readNat16?_of_weightText hvalue) h.font
  rw [hname, String.ofList_toList]
  cases e.style <;> rfl

/-- Fonts are read by putting in what they carry, in their order. -/
theorem readEntries_of_carries (h : List.Forall₂ (Carries uri) elements entries)
    (huri : d.namespaceUri = uri) : d.readEntries i elements = .ok (entries.foldl upsert d) := by
  induction h generalizing d i with
  | nil => rfl
  | @cons element e elements entries hcarries _ ih =>
    have he : readEntry d.namespaceUri i element = .ok e := huri ▸ hcarries.readEntry
    rw [readEntries, he]
    exact ih (d := d.upsert e) huri

/-- What is read is the namespace and the entries that the fonts carry, put in one after the other,
and the layout of the text has no part in it. -/
theorem ofXml_of_layout (hroot : root.localName = "font-family")
    (hfonts : List.Forall₂ (Carries (fontUri root)) (fontsOf root) entries) :
    ofElement root = .ok (entries.foldl upsert ⟨fontUri root, []⟩) ∧
    (∀ text, Xml.parse? text = some root →
      ofXml text = .ok (entries.foldl upsert ⟨fontUri root, []⟩)) ∧
    ∀ text, Xml.Document text root →
      ofXml text = .ok (entries.foldl upsert ⟨fontUri root, []⟩) := by
  have helement : ofElement root = .ok (entries.foldl upsert ⟨fontUri root, []⟩) := by
    unfold ofElement
    rw [if_neg (not_not_intro hroot)]
    exact readEntries_of_carries hfonts rfl
  have hread : ∀ text, Xml.parse? text = some root →
      ofXml text = .ok (entries.foldl upsert ⟨fontUri root, []⟩) := by
    intro text htext
    unfold ofXml
    rw [htext]
    exact helement
  exact ⟨helement, hread, fun text htext => hread text (Xml.parse?_of_document htext)⟩

end Descriptor

/-! ## A layout -/

namespace Xml

theorem nameText_plain {n : String} (h : isNamePart n.toList = true) :
    NameText n.toList ⟨"", n⟩ := by
  have := NameText.plain h
  rwa [String.ofList_toList] at this

theorem nameText_qualified {q n : String} (hq : isNamePart q.toList = true)
    (hn : isNamePart n.toList = true) : NameText (q.toList ++ ':' :: n.toList) ⟨q, n⟩ := by
  have := NameText.qualified hq hn
  rwa [String.ofList_toList, String.ofList_toList] at this

/-- A text that attribute values keep denotes itself, if it holds no reference. -/
theorem denotes_self {s : List Char} (hs : ∀ c ∈ s, isPlain c = true) (hamp : '&' ∉ s) :
    Denotes s s := by
  induction s with
  | nil => exact .nil
  | cons c s ih =>
    have hrest := ih (fun d hd => hs d (List.mem_cons_of_mem _ hd))
      fun hmem => hamp (List.mem_cons_of_mem _ hmem)
    have hc := ((Bool.and_eq_true _ _).mp (hs c List.mem_cons_self)).2
    by_cases hspace : isSpace c = true
    · rw [hspace, Bool.not_true, Bool.or_false] at hc
      obtain rfl := of_decide_eq_true hc
      exact .space rfl nofun hrest
    · refine .plain ?_ (Bool.eq_false_iff.2 hspace) hrest
      rintro rfl
      exact hamp List.mem_cons_self

/-- An attribute whose value is written as it is, with a space in front. -/
theorem attributesText_cons {w s : List Char} {name : Name} {v : String} {quote : Char}
    {as : List RawAttribute} (hname : NameText w name) (hquote : quote = '"' ∨ quote = '\'')
    (hv : Plain v) (hfree : '&' ∉ v.toList ∧ '<' ∉ v.toList ∧ quote ∉ v.toList)
    (hs : AttributesText s as) :
    AttributesText (' ' :: (w ++ '=' :: quote :: (v.toList ++ [quote])) ++ s) (⟨name, v⟩ :: as) := by
  have hvalue := denotes_self hv hfree.1
  have hnone : Spaces [] := nofun
  have hquoted := QuotedText.mk hnone hnone hquote (fun c hc => isLegal_of_isPlain (hv c hc))
    hfree.2.1 hfree.2.2
  have hattribute := AttributeText.mk hname hquoted hvalue
  rw [String.ofList_toList] at hattribute
  have hgap : Spaces [' '] := by decide
  exact .cons hgap (List.cons_ne_nil _ _) hattribute hs

/-- A tag whose attributes are written with one qualifier, in whatever order. -/
theorem tagMeans_bound {outer : Scope} {q n uri : String} {raw : List RawAttribute}
    (hnodup : (raw.map (·.name)).Nodup)
    (hraw : ∀ a ∈ raw, a.name.qualifier = q ∧ a.name.localName ≠ "xmlns")
    (hq : q ≠ "" ∧ q ≠ "xml" ∧ q ≠ "xmlns") (huri : outer.lookup q = some uri) :
    TagMeans outer ⟨"", n⟩ raw outer (raw.map fun a => ⟨some uri, a.name.localName, a.value⟩) := by
  have hqualifier : ∀ a ∈ raw, a.name.qualifier ≠ "xmlns" := fun a ha h =>
    hq.2.2 ((hraw a ha).1.symm.trans h)
  have hdeclared : declared raw = [] := by
    rw [declared, List.filter_eq_nil_iff.2, List.map_nil]
    intro a ha
    simp [hqualifier a ha]
  have hothers : raw.filter (fun a => !a.isDeclaration) = raw := by
    refine List.filter_eq_self.2 fun a ha => ?_
    simp [RawAttribute.isDeclaration, hqualifier a ha, (hraw a ha).2]
  refine ⟨hnodup, fun a ha => ⟨fun h => absurd h (hqualifier a ha), fun h => absurd h (hraw a ha).2⟩,
    by rw [hdeclared, List.nil_append], ?_, ?_, (by decide : "" ≠ "xmlns"), .inl rfl⟩
  · rw [hothers, List.forall₂_map_right_iff, List.forall₂_same]
    intro a ha
    obtain ⟨⟨qualifier, localName⟩, value⟩ := a
    obtain rfl : qualifier = q := (hraw _ ha).1
    exact .bound hq.1 hq.2.1 huri
  · refine List.Nodup.of_map (fun key : Option String × String => Name.mk q key.2) ?_
    rw [List.map_map, List.map_map]
    refine (List.map_congr_left fun a ha => ?_) ▸ hnodup
    rw [← (hraw a ha).1]
    rfl

end Xml

namespace Descriptor

open Xml

/-- A descriptor with two fonts for one style and weight.  One more is in a comment and one in another
element. -/
def oddText : String :=
  "<font-family xmlns:r='http://schemas.android.com/apk/res-auto'>\n<!--<font/>--><g><font/></g><?x?>" ++
    "<font r:font='a' r:fontWeight=' +07' r:fontStyle=\"normal\"/>" ++
    "<font r:fontStyle='normal' r:fontWeight='7' r:font='b' ></font></font-family>"

def oddScope : Scope := [("r", resAutoUri)]

/-- The tree of the text. -/
def oddRoot : Xml.Element :=
  .mk "font-family" oddScope []
    [.mk "g" oddScope [] [.mk "font" oddScope [] []],
      .mk "font" oddScope [⟨some resAutoUri, "font", "a"⟩, ⟨some resAutoUri, "fontWeight", " +07"⟩,
        ⟨some resAutoUri, "fontStyle", "normal"⟩] [],
      .mk "font" oddScope [⟨some resAutoUri, "fontStyle", "normal"⟩,
        ⟨some resAutoUri, "fontWeight", "7"⟩, ⟨some resAutoUri, "font", "b"⟩] []]

theorem tagMeans_root : TagMeans [] ⟨"", "font-family"⟩ [⟨⟨"xmlns", "r"⟩, resAutoUri⟩] oddScope [] where
  nodup := by decide
  allowed a ha := by
    obtain rfl := List.mem_singleton.1 ha
    exact ⟨fun _ => by decide, fun h => absurd h (by decide)⟩
  scope_eq := by decide
  resolved := .nil
  expanded_nodup := by decide
  name_ne := by decide
  name_bound := .inl rfl

theorem textRun_feed : TextRun ['\n'] where
  ne_nil := List.cons_ne_nil _ _
  legal := by decide
  no_tag := by decide
  no_mark := by decide
  references := ⟨[' '], .space rfl nofun .nil⟩

theorem document_oddText : Document oddText oddRoot := by
  have hnone : Spaces [] := nofun
  have hspace : Spaces [' '] := by decide
  have hname : ∀ n ∈ ["font", "fontStyle", "fontWeight"],
      NameText ("r".toList ++ ':' :: n.toList) ⟨"r", n⟩ := fun n hn =>
    nameText_qualified (by decide) (by revert n; decide)
  have hfont : NameText "font".toList ⟨"", "font"⟩ := nameText_plain (by decide)
  have hfamily : NameText "font-family".toList ⟨"", "font-family"⟩ := nameText_plain (by decide)
  have hother : NameText "g".toList ⟨"", "g"⟩ := nameText_plain (by decide)
  have hmeans : ∀ {n : String} {raw : List RawAttribute}, (raw.map (·.name)).Nodup →
      (∀ a ∈ raw, a.name.qualifier = "r" ∧ a.name.localName ≠ "xmlns") →
      TagMeans oddScope ⟨"", n⟩ raw oddScope
        (raw.map fun a => ⟨some resAutoUri, a.name.localName, a.value⟩) :=
    fun hnodup hraw => tagMeans_bound hnodup hraw (by decide) rfl
  have hstyle := hname "fontStyle" (by decide)
  have hweight := hname "fontWeight" (by decide)
  have href := hname "font" (by decide)
  -- the fonts that count, the last one first
  have hsecond := TagText.mk hfont (attributesText_cons hstyle (.inr rfl) (v := "normal") (by decide)
    (by decide) (attributesText_cons hweight (.inr rfl) (v := "7") (by decide) (by decide)
      (attributesText_cons href (.inr rfl) (v := "b") (by decide) (by decide) .nil))) hspace
  have hfirst := TagText.mk hfont (attributesText_cons href (.inr rfl) (v := "a") (by decide)
    (by decide) (attributesText_cons hweight (.inr rfl) (v := " +07") (by decide) (by decide)
      (attributesText_cons hstyle (.inl rfl) (v := "normal") (by decide) (by decide) .nil))) hnone
  have hfonts : Markup true oddScope _ _ := .closed hfirst (hmeans (by decide) (by decide))
    (.nested hsecond (hmeans (by decide) (by decide)) .nil hfont hnone .nil)
  -- what stands in front of them
  have hinstruction : RemarkText ("<?".toList ++ ("x".toList ++ ([] ++ "?>".toList))) :=
    .instruction (by decide) (by decide) nofun (by decide) nofun
  have hcomment : RemarkText ("<!--".toList ++ ("<font/>".toList ++ "-->".toList)) :=
    .comment (by decide) (by decide) (by decide)
  have hinside : Markup true oddScope _ _ := .remark hcomment
    (.nested (.mk hother .nil hnone) (hmeans List.nodup_nil nofun)
      (.closed (.mk hfont .nil hnone) (hmeans List.nodup_nil nofun) .nil) hother hnone
        (.remark hinstruction hfonts))
  have hroot := TagText.mk hfamily (attributesText_cons (nameText_qualified (q := "xmlns") (n := "r")
    (by decide) (by decide)) (.inr rfl) (v := resAutoUri) (by decide) (by decide) .nil) hnone
  have hbody : Markup false [] _ [oddRoot] := .nested hroot tagMeans_root
    (.text textRun_feed nofun (by rintro _ ⟨⟩; rfl) hinside) hfamily hnone .nil
  exact .mk (by decide +kernel) (.inl rfl) (.inl rfl) hbody

/-- The fonts of the odd text carry an entry each, and the second takes the place of the first. -/
theorem ofXml_oddText : oddRoot.localName = "font-family" ∧
    List.Forall₂ (Carries (fontUri oddRoot)) (fontsOf oddRoot)
      [⟨.normal, 7, "a"⟩, ⟨.normal, 7, "b"⟩] ∧
    Document oddText oddRoot ∧ ofXml oddText = .ok ⟨resAutoUri, [⟨.normal, 7, "b"⟩]⟩ := by
  have hfonts : List.Forall₂ (Carries (fontUri oddRoot)) (fontsOf oddRoot)
      [⟨.normal, 7, "a"⟩, ⟨.normal, 7, "b"⟩] := by
    refine .cons ⟨⟨"normal", by decide +kernel, by decide +kernel⟩, ⟨" +07", by decide +kernel, ?_⟩,
      by decide +kernel⟩ (.cons ⟨⟨"normal", by decide +kernel, by decide +kernel⟩,
        ⟨"7", by decide +kernel, ?_⟩, by decide +kernel⟩ .nil)
    · have htrim : Unicode.trim " +07".toList = ['+'] ++ ['0', '7'] := by decide +kernel
      rw [htrim]
      exact .mk (.inr rfl) (List.cons_ne_nil _ _) (List.all_eq_true.1 (by decide)) (by decide)
    · have htrim : Unicode.trim "7".toList = [] ++ ['7'] := by decide +kernel
      rw [htrim]
      exact .mk (.inl rfl) (List.cons_ne_nil _ _) (List.all_eq_true.1 (by decide)) (by decide)
  refine ⟨rfl, hfonts, document_oddText, ?_⟩
  exact (ofXml_of_layout rfl hfonts).2.2 oddText document_oddText

end Descriptor

end AndroidFonts
