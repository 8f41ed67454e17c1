/-
# `AndroidFonts.Proofs.Xml.Trees` — well-formed documents are read as their trees

Whatever text of a tree is given to the reader, it comes to the tree (`parse?_of_document`).

A row of markup is a row of tokens, and what these do to a builder is what placing the elements of the
row does, one after the other (`Row`, `Markup.exists_row`).  The tokens of an element open it, do to it
what placing its children does, and leave on the stack what placing the finished element there does
(`Row.nested`).  Of what stands behind a row it only matters that it is a tag, or nothing.
-/
import AndroidFonts.Proofs.Descriptor.Soundness
import AndroidFonts.Proofs.Xml.Reading
import Mathlib.Data.List.Nodup

namespace AndroidFonts.Xml

open Text

variable {w s r rest : List Char} {name : Name}

/-! ## Elements -/

section
variable {outer scope : Scope} {raw : List RawAttribute} {attributes : List Attribute}

theorem declared_cons_of_ne {a : RawAttribute} (h : a.name.qualifier ≠ "xmlns") :
    declared (a :: raw) = declared raw := by
  unfold declared
  rw [List.filter_cons_of_neg (by simp [h])]

theorem declared_cons_xml {a : RawAttribute} (h : a.name.localName = "xml") :
    declared (a :: raw) = declared raw := by
  unfold declared
  rw [List.filter_cons_of_neg (by simp [h])]

theorem declared_cons {a : RawAttribute} (h : a.name.qualifier = "xmlns")
    (hxml : a.name.localName ≠ "xml") :
    declared (a :: raw) = (a.name.localName, a.value) :: declared raw := by
  unfold declared
  rw [List.filter_cons_of_pos (by simp [h, hxml]), List.map_cons]

theorem bindings?_of_allowed (h : ∀ a ∈ raw, a.Allowed) : bindings? raw = some (declared raw) := by
  induction raw with
  | nil => rfl
  | cons a raw ih =>
    have ha := h a List.mem_cons_self
    rw [bindings?, ih fun b hb => h b (List.mem_cons_of_mem _ hb)]
    show (if a.name.qualifier = "xmlns" then _ else _) = _
    by_cases hq : a.name.qualifier = "xmlns"
    · obtain ⟨hfree, hiff⟩ := ha.qualified hq
      rw [if_pos hq, if_neg hfree]
      by_cases hxml : a.name.localName = "xml"
      · rw [if_pos hxml, if_pos (hiff.1 hxml), declared_cons_xml hxml]
      · rw [if_neg hxml, if_neg fun huri => hxml (hiff.2 huri), declared_cons hq hxml]
    · rw [if_neg hq, declared_cons_of_ne hq]
      by_cases hdefault : a.name.localName = "xmlns"
      · obtain ⟨-, hxml, hxmlns⟩ := ha.default hdefault
        rw [if_pos hdefault, decide_eq_false hxml, decide_eq_false hxmlns]
        rfl
      · rw [if_neg hdefault]

theorem nodup_declared (h : (raw.map (·.name)).Nodup) : ((declared raw).map (·.1)).Nodup := by
  unfold declared
  rw [List.map_map]
  refine List.Nodup.of_map (fun n : String => Name.mk "xmlns" n) ?_
  rw [List.map_map]
  have hnames : ((raw.filter fun a => a.name.qualifier = "xmlns" && a.name.localName ≠ "xml").map
      fun a => Name.mk "xmlns" a.name.localName) =
        (raw.filter fun a => a.name.qualifier = "xmlns" && a.name.localName ≠ "xml").map (·.name) := by
    refine List.map_congr_left fun a ha => ?_
    have hq := (List.mem_filter.1 ha).2
    simp only [Bool.and_eq_true, decide_eq_true_eq] at hq
    rw [← hq.1]
  exact hnames ▸ h.sublist (List.filter_sublist.map _)

theorem resolve?_of_resolves {a : RawAttribute} {b : Attribute} (h : Resolves scope a b) :
    resolve? scope a = some b := by
  cases h with
  | plain => rfl
  | xml => rfl
  | @bound q n value uri hempty hxml huri =>
    show (if q = "" then _ else if q = "xml" then _ else (scope.lookup q).map _) = _
    rw [if_neg hempty, if_neg hxml, huri]
    rfl

theorem mapM_resolve? (h : List.Forall₂ (Resolves scope) raw attributes) :
    raw.mapM (resolve? scope) = some attributes := by
  induction h with
  | nil => rfl
  | cons hab _ ih =>
    rw [List.mapM_cons, resolve?_of_resolves hab, ih]
    rfl

/-- A start tag opens the element that it means. -/
theorem TagMeans.open? (h : TagMeans outer name raw scope attributes) :
    Element.open? outer name raw = some (.mk name.localName scope attributes []) := by
  have hown := nodup_declared h.nodup
  have hbound : (decide (name.qualifier = "") || (scope.lookup name.qualifier).isSome) = true := by
    rcases h.name_bound with hempty | hsome
    · rw [decide_eq_true hempty]
      rfl
    · rw [hsome, Bool.or_true]
  unfold Element.open?
  rw [bindings?_of_allowed h.allowed]
  show ((raw.filter fun a => !a.isDeclaration).mapM (resolve? (declared raw ++ outer))).bind _ = _
  rw [← h.scope_eq, mapM_resolve? h.resolved]
  refine if_pos ?_
  simp only [decide_eq_true hown, decide_eq_true h.expanded_nodup, hbound, h.name_ne, Bool.and_true,
    ne_eq, not_false_eq_true, decide_true]

end

/-! ## Trees -/

namespace TreeBuilder

variable {b b' : TreeBuilder} {outer : List OpenElement} {root : Option Element}

/-- Placing an element leaves the scope as it is, and the outside outside. -/
theorem place_keeps {e : Element} (h : b.place e = some b') :
    b'.scope = b.scope ∧ b'.stack.isEmpty = b.stack.isEmpty := by
  unfold place at h
  cases hstack : b.stack with
  | nil =>
    rw [hstack] at h
    change (if b.root.isSome then none else some (⟨some e, []⟩ : TreeBuilder)) = some b' at h
    split at h
    · nomatch h
    · obtain rfl := Option.some.inj h
      exact ⟨by unfold scope; rw [hstack], rfl⟩
  | cons o outer =>
    rw [hstack] at h
    obtain rfl := Option.some.inj h
    refine ⟨?_, rfl⟩
    unfold scope
    rw [hstack]
    exact scope_addChild o e

/-- Inside of an element all elements that are placed become its children. -/
theorem foldlM_place (es : List Element) (o : OpenElement) :
    es.foldlM place ⟨root, o :: outer⟩ = some ⟨root, es.foldl OpenElement.addChild o :: outer⟩ := by
  induction es generalizing o with
  | nil => rfl
  | cons e es ih =>
    rw [List.foldlM_cons]
    exact ih (o.addChild e)

end TreeBuilder

theorem foldl_addChild (es : List Element) (name : Name) (n : String) (scope : Scope)
    (attributes : List Attribute) (children : List Element) :
    es.foldl OpenElement.addChild ⟨name, .mk n scope attributes children⟩ =
      ⟨name, .mk n scope attributes (es.reverse ++ children)⟩ := by
  induction es generalizing children with
  | nil => rfl
  | cons e es ih =>
    rw [List.foldl_cons]
    refine (ih (e :: children)).trans ?_
    rw [List.reverse_cons, List.append_assoc]
    rfl

namespace TreeBuilder

section
variable {b : TreeBuilder} {scope : Scope} {raw : List RawAttribute} {attributes : List Attribute}
  {children : List Element}

/-- Where no element may stand, because the root is finished, none is placed. -/
theorem place_of_finished (h : (b.stack.isEmpty && b.root.isSome) = true) (e : Element) :
    b.place e = none := by
  obtain ⟨hstack, hroot⟩ := (Bool.and_eq_true _ _).mp h
  unfold place
  rw [List.isEmpty_iff.1 hstack]
  exact if_pos hroot

theorem step_closed (h : TagMeans b.scope name raw scope attributes) :
    b.step (.startTag name raw true) = b.place (.mk name.localName scope attributes []) := by
  show (if (b.stack.isEmpty && b.root.isSome) = true then none
    else (Element.open? b.scope name raw).bind b.place) = _
  split
  · exact (place_of_finished ‹_› _).symm
  · rw [h.open?]
    rfl

/-- The tokens of an element, those of its inside among them, place the element. -/
theorem foldlM_nested {inner us : List Token} (h : TagMeans b.scope name raw scope attributes)
    (hinner : ∀ b : TreeBuilder, b.scope = scope → b.stack.isEmpty = false →
      inner.foldlM step b = children.foldlM place b) :
    (.startTag name raw false :: (inner ++ .endTag name :: us)).foldlM step b =
      (b.place (.mk name.localName scope attributes children)).bind fun b => us.foldlM step b := by
  have hopen : b.step (.startTag name raw false) =
      if (b.stack.isEmpty && b.root.isSome) = true then none
      else some ⟨b.root, ⟨name, .mk name.localName scope attributes []⟩ :: b.stack⟩ := by
    show (if (b.stack.isEmpty && b.root.isSome) = true then none
      else (Element.open? b.scope name raw).bind fun e =>
        some (⟨b.root, ⟨name, e⟩ :: b.stack⟩ : TreeBuilder)) = _
    rw [h.open?]
    rfl
  rw [List.foldlM_cons, hopen]
  split
  · rw [place_of_finished ‹_›]
    rfl
  · show (inner ++ .endTag name :: us).foldlM step _ = _
    rw [List.foldlM_append, hinner _ rfl rfl, foldlM_place, foldl_addChild, List.append_nil]
    show (Token.endTag name :: us).foldlM step _ = _
    rw [List.foldlM_cons]
    show ((if name = name then place b (.mk name.localName scope attributes children.reverse.reverse)
      else none) >>= _) = _
    rw [if_pos rfl, List.reverse_reverse]
    rfl

end

end TreeBuilder

/-- What is read as one token in front of other tokens takes up some of the text. -/
theorem TokensRead.cons_append {a : Token} {ts : List Token} (h : TokensRead rest ts) (hw : w ≠ [])
    (hread : readToken (w ++ rest) = some (a, rest)) : TokensRead (w ++ rest) (a :: ts) := by
  refine h.cons hread ?_
  have := List.length_pos_of_ne_nil hw
  rw [List.length_append]
  omega

theorem RemarkText.ne_nil (h : RemarkText w) : w ≠ [] := by
  cases h with
  | comment => exact List.cons_ne_nil '<' _
  | instruction => exact List.cons_ne_nil '<' _

/-! ## Rows of markup -/

/-- Whether a text is read as a row of tokens, whatever tag follows, and the tokens do to a builder at a
place what placing some elements does. -/
structure Row (inside : Bool) (outer : Scope) (s : List Char) (us : List Token) (es : List Element) :
    Prop where
  reads : ∀ rest ts, (∀ c, rest.head? = some c → c = '<') → TokensRead rest ts →
    TokensRead (s ++ rest) (us ++ ts)
  places : ∀ b : TreeBuilder, b.scope = outer → b.stack.isEmpty = !inside →
    us.foldlM TreeBuilder.step b = es.foldlM TreeBuilder.place b

namespace Row

variable {inside : Bool} {outer scope : Scope} {us inner : List Token} {es children : List Element}
  {raw : List RawAttribute} {attributes : List Attribute}

theorem nil (inside : Bool) (outer : Scope) : Row inside outer [] [] [] :=
  ⟨fun _ _ _ h => h, fun _ _ _ => rfl⟩

/-- A token that leaves a builder as it is may stand in front of a row. -/
theorem cons {a : Token} (h : Row inside outer s us es) (hw : w ≠ [])
    (hread : ∀ rest, (∀ c, rest.head? = some c → c = '<') →
      readToken (w ++ (s ++ rest)) = some (a, s ++ rest))
    (hstep : ∀ b : TreeBuilder, b.scope = outer → b.stack.isEmpty = !inside → b.step a = some b) :
    Row inside outer (w ++ s) (a :: us) es where
  reads rest ts hrest hts := by
    rw [List.append_assoc]
    exact (h.reads rest ts hrest hts).cons_append hw (hread rest hrest)
  places b hscope hstack := by
    rw [List.foldlM_cons, hstep b hscope hstack]
    exact h.places b hscope hstack

/-- Placing an element keeps what the rest of a row asks for. -/
theorem places_cons (h : Row inside outer s us es) {b : TreeBuilder} (hscope : b.scope = outer)
    (hstack : b.stack.isEmpty = !inside) (e : Element) :
    ((b.place e).bind fun b => us.foldlM TreeBuilder.step b) =
      (e :: es).foldlM TreeBuilder.place b := by
  rw [List.foldlM_cons]
  cases hplace : b.place e with
  | none => rfl
  | some b' =>
    obtain ⟨hscope', hstack'⟩ := TreeBuilder.place_keeps hplace
    exact h.places b' (hscope'.trans hscope) (hstack'.trans hstack)

theorem text (h : Row inside outer s us es) (hw : TextRun w) (hspaces : inside = false → Spaces w)
    (hs : ∀ c, s.head? = some c → c = '<') : Row inside outer (w ++ s) (.text w :: us) es := by
  refine h.cons hw.ne_nil (fun rest hrest => hw.readToken ?_) fun b _ hstack => if_neg ?_
  · cases s with
    | nil => exact hrest
    | cons c s => exact hs
  · cases inside with
    | true =>
      rw [hstack]
      nofun
    | false =>
      rw [List.all_eq_true.2 (hspaces rfl), Bool.not_true, Bool.and_false]
      nofun

theorem literal (h : Row true outer s us es) (hlegal : Legal w) (hmark : ¬ "]]>".toList <:+: w) :
    Row true outer ("<![CDATA[".toList ++ (w ++ ("]]>".toList ++ s))) (.literal :: us) es := by
  rw [← List.append_assoc w, ← List.append_assoc]
  refine h.cons (List.cons_ne_nil '<' _) (fun rest _ => ?_) fun b _ hstack => if_neg ?_
  · rw [List.append_assoc, List.append_assoc]
    exact readToken_literal hlegal hmark (s ++ rest)
  · rw [hstack]
    nofun

theorem remark (h : Row inside outer s us es) (hw : RemarkText w) :
    Row inside outer (w ++ s) (.remark :: us) es :=
  h.cons hw.ne_nil (fun rest _ => hw.readToken (s ++ rest)) fun _ _ _ => rfl

theorem closed (h : Row inside outer s us es) (htag : TagText w name raw)
    (hmeans : TagMeans outer name raw scope attributes) :
    Row inside outer ('<' :: (w ++ '/' :: '>' :: s)) (.startTag name raw true :: us)
      (.mk name.localName scope attributes [] :: es) where
  reads rest ts hrest hts := by
    have hends : EndsName ('/' :: '>' :: (s ++ rest)) := endsName_cons (by decide) _
    have htoken := htag.readToken (fun gap hgap => attributesRead_gap_closed hgap (s ++ rest)) hends
    refine (h.reads rest ts hrest hts).cons ?_ ?_
    · rw [← htoken]
      simp
    · simp only [List.length_append, List.length_cons]
      omega
  places b hscope hstack := by
    subst hscope
    rw [List.foldlM_cons, TreeBuilder.step_closed hmeans]
    exact h.places_cons rfl hstack _

theorem nested {body v gap : List Char} (h : Row inside outer s us es)
    (hbody : Row true scope body inner children) (htag : TagText w name raw)
    (hmeans : TagMeans outer name raw scope attributes) (hv : NameText v name) (hgap : Spaces gap) :
    Row inside outer ('<' :: (w ++ '>' :: (body ++ '<' :: '/' :: (v ++ (gap ++ '>' :: s)))))
      (.startTag name raw false :: (inner ++ .endTag name :: us))
      (.mk name.localName scope attributes children :: es) where
  reads rest ts hrest hts := by
    -- what stands behind the inside: the end tag, and the rest of the row
    obtain ⟨tail, htail⟩ : ∃ tail, '<' :: '/' :: (v ++ (gap ++ '>' :: (s ++ rest))) = '<' :: tail :=
      ⟨_, rfl⟩
    have hend : TokensRead ('<' :: tail) (.endTag name :: (us ++ ts)) := by
      rw [← htail]
      refine (h.reads rest ts hrest hts).cons (readToken_endTag hv hgap (s ++ rest)) ?_
      simp only [List.length_append, List.length_cons]
      omega
    have hhead : ∀ c, ('<' :: tail).head? = some c → c = '<' := fun c hc =>
      (Option.some.inj hc).symm
    have hinside := hbody.reads _ _ hhead hend
    have hends : EndsName ('>' :: (body ++ '<' :: tail)) := endsName_cons (by decide) _
    have htoken := htag.readToken
      (fun gap hgap => attributesRead_gap_open hgap (body ++ '<' :: tail)) hends
    have hrow : '<' :: (w ++ '>' :: (body ++ '<' :: '/' :: (v ++ (gap ++ '>' :: s)))) ++ rest =
        '<' :: (w ++ '>' :: (body ++ '<' :: tail)) := by
      rw [← htail]
      simp
    have htokens : Token.startTag name raw false :: (inner ++ .endTag name :: us) ++ ts =
        .startTag name raw false :: (inner ++ .endTag name :: (us ++ ts)) := by
      simp
    rw [hrow, htokens]
    refine hinside.cons htoken ?_
    simp only [List.length_append, List.length_cons]
    omega
  places b hscope hstack := by
    subst hscope
    rw [TreeBuilder.foldlM_nested hmeans hbody.places]
    exact h.places_cons rfl hstack _

end Row

/-- A row of markup is a row of tokens, which has the effect of placing the elements in it. -/
theorem Markup.exists_row {inside : Bool} {outer : Scope} {es : List Element}
    (h : Markup inside outer s es) : ∃ us, Row inside outer s us es := by
  induction h with
  | nil => exact ⟨_, .nil _ _⟩
  | text hw hspaces hs _ ih =>
    obtain ⟨us, hrow⟩ := ih
    exact ⟨_, hrow.text hw hspaces hs⟩
  | literal hlegal hmark _ ih =>
    obtain ⟨us, hrow⟩ := ih
    exact ⟨_, hrow.literal hlegal hmark⟩
  | remark hw _ ih =>
    obtain ⟨us, hrow⟩ := ih
    exact ⟨_, hrow.remark hw⟩
  | closed htag hmeans _ ih =>
    obtain ⟨us, hrow⟩ := ih
    exact ⟨_, hrow.closed htag hmeans⟩
  | nested htag hmeans _ hv hgap _ ihbody ih =>
    obtain ⟨inner, hbody⟩ := ihbody
    obtain ⟨us, hrow⟩ := ih
    exact ⟨_, hrow.nested hbody htag hmeans hv hgap⟩

/-! ## Documents -/

theorem TagText.not_declaration {raw : List RawAttribute} (h : TagText w name raw) (r : List Char) :
    afterPrefix? "<?xml ".toList ('<' :: (w ++ r)) = none := by
  obtain @⟨w, s, gap, name, raw, hname, -, -⟩ := h
  obtain ⟨c, t, rfl, hc⟩ := hname.exists_start
  have hne : '?' ≠ c := by
    rintro rfl
    exact absurd hc (by decide)
  exact if_neg hne

/-- Markup outside of all elements begins with no byte order mark and not as a declaration does. -/
theorem Markup.front {es : List Element} (h : Markup false [] s es) :
    (∀ t, s ≠ '\ufeff' :: t) ∧ afterPrefix? "<?xml ".toList s = none := by
  cases h with
  | nil => exact ⟨nofun, rfl⟩
  | @text _ _ w s _ hw hspaces _ _ =>
    obtain ⟨c, w, rfl⟩ := List.exists_cons_of_ne_nil hw.ne_nil
    have hc := hspaces rfl c List.mem_cons_self
    have hne : '<' ≠ c := by
      rintro rfl
      nomatch hc
    refine ⟨fun t ht => ?_, if_neg hne⟩
    rw [(List.cons.inj ht).1] at hc
    nomatch hc
  | @remark _ _ w s _ hw _ =>
    cases hw with
    | comment => exact ⟨nofun, rfl⟩
    | @instruction target data htarget hxml _ _ hdata =>
      refine ⟨nofun, ?_⟩
      have hnone := Xml.not_declaration htarget hxml hdata s
      show afterPrefix? "xml ".toList (target ++ (data ++ "?>".toList) ++ s) = none
      rwa [List.append_assoc, List.append_assoc]
  | closed htag _ _ => exact ⟨nofun, htag.not_declaration _⟩
  | nested htag _ _ _ _ _ => exact ⟨nofun, htag.not_declaration _⟩

/-- A byte order mark is passed over. -/
theorem skipProlog_append {mark : List Char} (hmark : mark = [] ∨ mark = ['\ufeff'])
    (hs : ∀ t, s ≠ '\ufeff' :: t) : skipProlog (mark ++ s) =
      match afterPrefix? "<?xml ".toList s with
      | some r => readDeclaration (' ' :: r)
      | none => some s := by
  rcases hmark with rfl | rfl
  · unfold skipProlog
    rw [List.nil_append]
    split
    · exact absurd rfl (hs _)
    · rfl
  · rfl

/-- A well-formed document is read as its root element. -/
theorem parse?_of_document {text : String} {root : Element} (h : Document text root) :
    parse? text = some root := by
  obtain @⟨mark, declaration, body, htext, hmark, hdeclaration, hbody⟩ := h
  obtain ⟨hfree, hnone⟩ := hbody.front
  obtain ⟨us, hrow⟩ := hbody.exists_row
  have htokens : TokensRead body us := by
    have := hrow.reads [] [] nofun tokensRead_nil
    rwa [List.append_nil, List.append_nil] at this
  have hroot : Element.ofTokens? us = some root := by
    unfold Element.ofTokens?
    rw [hrow.places ⟨none, []⟩ rfl rfl]
    rfl
  unfold parse? tokens?
  rw [htext]
  rcases hdeclaration with rfl | hdeclaration
  · rw [List.nil_append, skipProlog_append hmark hfree, hnone]
    show ((readTokens body.length body).bind Element.ofTokens?) = _
    rw [htokens _ (le_refl _)]
    exact hroot
  · have hfront : ∀ t, declaration ++ body ≠ '\ufeff' :: t := by
      obtain @⟨version, e, o, gap, -, -, -, -⟩ := hdeclaration
      nofun
    rw [skipProlog_append hmark hfront]
    rcases hdeclaration.cases body with ⟨r, hr, hdone⟩ | ⟨hother, htoken⟩
    · have hafter : afterPrefix? "<?xml ".toList (declaration ++ body) = some r :=
        afterPrefix?_eq_some_iff.2 hr
      simp only [hafter, hdone]
      show ((readTokens body.length body).bind Element.ofTokens?) = _
      rw [htokens _ (le_refl _)]
      exact hroot
    · have hne : declaration ≠ [] := by
        obtain @⟨version, e, o, gap, -, -, -, -⟩ := hdeclaration
        exact List.cons_ne_nil '<' _
      rw [hother]
      show ((readTokens (declaration ++ body).length (declaration ++ body)).bind Element.ofTokens?) = _
      rw [htokens.cons_append hne htoken _ (le_refl _)]
      exact hroot

end AndroidFonts.Xml
