/-
# `AndroidFonts.Proofs.Descriptor.RoundTrip` — what is written is read back

A descriptor that is written in any layout is read back as it was (`ofXml_write`), provided that its
keys are distinct and that attribute values can hold its texts: a character that is not legal in XML
cannot be written at all, and a tab or line break that stands in a value is read as a space.

The text is followed from the front.  An escaped value is read as the value
(`attributeValue?_escape`), an attribute as an attribute, a tag as one token, the row of tokens as
one tree with a child for each font, and each child as its entry.
-/
import AndroidFonts.Descriptor.Xml
import AndroidFonts.Proofs.Descriptor.Merge
import AndroidFonts.Proofs.Text.Numeral
import AndroidFonts.Proofs.Text.Runs
import AndroidFonts.Proofs.Text.Search

namespace AndroidFonts

open Text

/-! ## Attribute values -/

namespace Xml

/-- Whether an attribute value keeps a character: it is legal, and not read as a space. -/
def isPlain (c : Char) : Bool := isLegal c && (c = ' ' || !isSpace c)

/-- A text that attribute values keep. -/
def Plain (s : String) : Prop := ∀ c ∈ s.toList, isPlain c = true

-- Named, so that no instance is taken that tries every character there is.
instance (s : String) : Decidable (Plain s) := List.decidableBAll _ _

theorem isLegal_of_isPlain {c : Char} (h : isPlain c = true) : isLegal c = true :=
  ((Bool.and_eq_true _ _).mp h).1

theorem isLegal_of_isSpace {c : Char} (h : isSpace c = true) : isLegal c = true := by
  unfold isSpace at h
  simp only [Bool.or_eq_true, decide_eq_true_eq] at h
  rcases h with ((rfl | rfl) | rfl) | rfl <;> rfl

open DescriptorFormat in
/-- A character is written as itself, or as a reference to it. -/
theorem escapeChar_cases (c : Char) :
    (escapeChar c = [c] ∧ c ≠ '&' ∧ c ≠ '<' ∧ c ≠ '"') ∨
      ∃ w, escapeChar c = '&' :: w ∧ (∀ r, readReference (w ++ r) = some (c, r)) ∧
        w.all isLegal = true ∧ '<' ∉ w ∧ '"' ∉ w := by
  by_cases hamp : c = '&'
  · subst hamp
    exact .inr ⟨"amp;".toList, rfl, fun _ => rfl, by decide⟩
  by_cases hlt : c = '<'
  · subst hlt
    exact .inr ⟨"lt;".toList, rfl, fun _ => rfl, by decide⟩
  by_cases hgt : c = '>'
  · subst hgt
    exact .inr ⟨"gt;".toList, rfl, fun _ => rfl, by decide⟩
  by_cases hquot : c = '"'
  · subst hquot
    exact .inr ⟨"quot;".toList, rfl, fun _ => rfl, by decide⟩
  by_cases hapos : c = '\''
  · subst hapos
    exact .inr ⟨"apos;".toList, rfl, fun _ => rfl, by decide⟩
  refine .inl ⟨?_, hamp, hlt, hquot⟩
  unfold escapeChar
  split
  · exact absurd rfl hamp
  · exact absurd rfl hlt
  · exact absurd rfl hgt
  · exact absurd rfl hquot
  · exact absurd rfl hapos
  · rfl

/-- The characters of an escaped text are legal and do not end a value. -/
theorem mem_escape {s : List Char} {c : Char} (hs : ∀ c ∈ s, isPlain c = true)
    (hc : c ∈ s.flatMap DescriptorFormat.escapeChar) :
    isLegal c = true ∧ c ≠ '<' ∧ c ≠ '"' := by
  obtain ⟨a, ha, hca⟩ := List.mem_flatMap.1 hc
  rcases escapeChar_cases a with ⟨heq, -, hlt, hquot⟩ | ⟨w, heq, -, hlegal, hlt, hquot⟩
  · rw [heq] at hca
    obtain rfl := List.mem_singleton.1 hca
    exact ⟨isLegal_of_isPlain (hs c ha), hlt, hquot⟩
  · rw [heq] at hca
    rcases List.mem_cons.1 hca with rfl | hcw
    · exact ⟨rfl, by decide, by decide⟩
    · refine ⟨List.all_eq_true.1 hlegal c hcw, ?_, ?_⟩
      · rintro rfl
        exact hlt hcw
      · rintro rfl
        exact hquot hcw

theorem attributeValue?_go_cons {c : Char} {n : Nat} (hc : isPlain c = true) (hamp : c ≠ '&')
    (s : List Char) :
    attributeValue?.go (n + 1) (c :: s) = (attributeValue?.go n s).map (c :: ·) := by
  have hreturn : c ≠ '\r' := by
    rintro rfl
    nomatch hc
  rw [attributeValue?.go.eq_5 n c s (fun h => hamp h) (fun _ h _ => hreturn h)]
  unfold isPlain at hc
  split
  · rename_i hspace
    simp only [hspace, Bool.not_true, Bool.or_false, Bool.and_eq_true, decide_eq_true_eq] at hc
    rw [hc.2]
  · rfl

theorem attributeValue?_go_amp {c : Char} {n : Nat} {s rest : List Char}
    (h : readReference s = some (c, rest)) :
    attributeValue?.go (n + 1) ('&' :: s) = (attributeValue?.go n rest).map (c :: ·) := by
  rw [attributeValue?.go.eq_3, h]
  show (attributeValue?.go n rest).bind (fun s => some (c :: s)) = _
  cases attributeValue?.go n rest with
  | none => rfl
  | some s => rfl

/-- A value that was escaped is read as it was. -/
theorem attributeValue?_escape {s : List Char} (hs : ∀ c ∈ s, isPlain c = true) :
    attributeValue? (s.flatMap DescriptorFormat.escapeChar) = some s := by
  have hgo : ∀ n, (s.flatMap DescriptorFormat.escapeChar).length ≤ n →
      attributeValue?.go n (s.flatMap DescriptorFormat.escapeChar) = some s := by
    induction s with
    | nil => exact fun n _ => by rw [List.flatMap_nil, attributeValue?.go]
    | cons c s ih =>
      intro n hn
      have ih := ih fun d hd => hs d (List.mem_cons_of_mem _ hd)
      rw [List.flatMap_cons] at hn ⊢
      rcases escapeChar_cases c with ⟨heq, hamp, -, -⟩ | ⟨w, heq, href, -⟩
      · rw [heq] at hn ⊢
        cases n with
        | zero => nomatch hn
        | succ n =>
          rw [List.singleton_append, attributeValue?_go_cons (hs c List.mem_cons_self) hamp,
            ih n (by simpa using hn)]
          rfl
      · rw [heq] at hn ⊢
        cases n with
        | zero => nomatch hn
        | succ n =>
          rw [List.cons_append, attributeValue?_go_amp (href _), ih n]
          · rfl
          · rw [List.cons_append, List.length_cons, List.length_append] at hn
            omega
  exact hgo _ (le_refl _)

/-! ## Tokens -/

/-- An attribute as it is written, with a space in front. -/
def attributeText (name value : List Char) : List Char :=
  ' ' :: (name ++ '=' :: '"' :: (value.flatMap DescriptorFormat.escapeChar ++ ['"']))

theorem readUntil_quote {quote : Char} {raw : List Char} (hlegal : ∀ c ∈ raw, isLegal c = true)
    (hraw : quote ∉ raw) (rest : List Char) :
    readUntil [quote] (raw ++ quote :: rest) = some (raw, rest) := by
  unfold readUntil
  rw [cut?_singleton hraw]
  simp only [List.all_eq_true.2 hlegal, if_true]

variable {m : Name} {w : List Char} {v : String}

theorem readAttribute_text (hv : Plain v)
    (hname : ∀ r, readName (w ++ '=' :: r) = some (m, '=' :: r)) (rest : List Char) :
    readAttribute ((attributeText w v.toList).tail ++ rest) = some (⟨m, v⟩, rest) := by
  have hraw : ∀ c ∈ v.toList.flatMap DescriptorFormat.escapeChar, _ := fun c hc =>
    mem_escape hv hc
  have hquoted : readQuoted ('=' :: '"' ::
      (v.toList.flatMap DescriptorFormat.escapeChar ++ '"' :: rest)) =
        some (v.toList.flatMap DescriptorFormat.escapeChar, rest) :=
    readUntil_quote (fun c hc => (hraw c hc).1) (fun h => (hraw _ h).2.2 rfl) rest
  have hpair : readPair ((attributeText w v.toList).tail ++ rest) =
      some (m, v.toList.flatMap DescriptorFormat.escapeChar, rest) := by
    have htext : (attributeText w v.toList).tail ++ rest = w ++ '=' :: '"' ::
        (v.toList.flatMap DescriptorFormat.escapeChar ++ '"' :: rest) := by
      simp [attributeText]
    unfold readPair
    rw [htext, hname]
    show (readQuoted _).bind _ = _
    rw [hquoted]
    show (if '<' ∈ v.toList.flatMap DescriptorFormat.escapeChar then none else _) = _
    rw [if_neg fun h => (hraw _ h).2.1 rfl]
    rfl
  unfold readAttribute
  rw [hpair]
  show ((attributeValue? _).bind _ : Option _) = _
  rw [attributeValue?_escape hv]
  show some (RawAttribute.mk m (String.ofList v.toList), rest) = _
  rw [String.ofList_toList]

/-- What follows the name of a start tag is read as these attributes and this end of the tag. -/
def AttributesRead (s : List Char) (as : List RawAttribute) (closed : Bool) (rest : List Char) :
    Prop :=
  ∀ n, s.length ≤ n → readAttributes (n + 1) s = some (as, closed, rest)

theorem attributesRead_open (rest : List Char) : AttributesRead ('>' :: rest) [] false rest :=
  fun _ _ => rfl

theorem attributesRead_closed (rest : List Char) :
    AttributesRead ('/' :: '>' :: rest) [] true rest :=
  fun _ _ => rfl

/-- Whether a character can begin an attribute. -/
def beginsAttribute (c : Char) : Bool := !isSpace c && c ≠ '>' && c ≠ '/'

/-- An attribute behind white space is the first of those that are read. -/
theorem AttributesRead.cons_of_read {c : Char} {gap t s rest : List Char} {a : RawAttribute}
    {as : List RawAttribute} {closed : Bool} (h : AttributesRead s as closed rest)
    (hgap : ∀ c ∈ gap, isSpace c = true) (hne : gap ≠ [])
    (hread : readAttribute (c :: t ++ s) = some (a, s)) (hc : beginsAttribute c = true) :
    AttributesRead (gap ++ (c :: t ++ s)) (a :: as) closed rest := by
  intro n hn
  unfold beginsAttribute at hc
  simp only [Bool.and_eq_true, Bool.not_eq_true', decide_eq_true_eq] at hc
  obtain ⟨⟨hspace, hgt⟩, hslash⟩ := hc
  have hlength : (gap ++ (c :: t ++ s)).length = gap.length + (t.length + s.length + 1) := by
    rw [List.length_append, List.length_append, List.length_cons]
    omega
  have hsize : (c :: t ++ s).length = t.length + s.length + 1 := by
    rw [List.length_append, List.length_cons]
    omega
  have hpos := List.length_pos_of_ne_nil hne
  obtain ⟨m, rfl⟩ : ∃ m, n = m + 1 := ⟨n - 1, by omega⟩
  have hspaces : skipSpaces (gap ++ (c :: t ++ s)) = c :: t ++ s := by
    refine dropWhile_run hgap fun d hd => ?_
    obtain rfl := Option.some.inj hd
    exact hspace
  rw [readAttributes, hspaces]
  split
  · rename_i heq
    exact absurd (List.cons.inj heq).1 hgt
  · rename_i heq
    exact absurd (List.cons.inj heq).1 hslash
  · rw [if_neg (by omega), hread]
    show (readAttributes (m + 1) s).bind _ = _
    rw [h m (by omega)]
    rfl

theorem AttributesRead.cons {c : Char} {s rest : List Char} {as : List RawAttribute}
    {closed : Bool} (h : AttributesRead s as closed rest) (hv : Plain v)
    (hname : ∀ r, readName (c :: w ++ '=' :: r) = some (m, '=' :: r))
    (hc : beginsAttribute c = true) :
    AttributesRead (attributeText (c :: w) v.toList ++ s) (⟨m, v⟩ :: as) closed rest :=
  have hgap : ∀ c ∈ [' '], isSpace c = true := List.forall_mem_singleton.2 rfl
  h.cons_of_read hgap (List.cons_ne_nil _ _) (readAttribute_text hv hname s) hc

/-- A start tag is read as one token. -/
theorem readToken_startTag {c : Char} {s rest : List Char} {as : List RawAttribute} {closed : Bool}
    (hname : readName (c :: w ++ s) = some (m, s)) (hc : isNameStart c = true)
    (hs : AttributesRead s as closed rest) :
    readToken ('<' :: c :: w ++ s) = some (.startTag m as closed, rest) := by
  have hmark : c ≠ '!' ∧ c ≠ '?' ∧ c ≠ '/' := by
    refine ⟨?_, ?_, ?_⟩ <;>
    · rintro rfl
      exact absurd hc (by decide)
  unfold readToken
  split
  · rename_i heq
    exact absurd (List.cons.inj (List.cons.inj heq).2).1 hmark.1
  · rename_i heq
    exact absurd (List.cons.inj (List.cons.inj heq).2).1 hmark.1
  · rename_i heq
    exact absurd (List.cons.inj (List.cons.inj heq).2).1 hmark.2.1
  · rename_i heq
    exact absurd (List.cons.inj (List.cons.inj heq).2).1 hmark.2.2
  · rename_i heq
    rw [← (List.cons.inj heq).2]
    show (readName (c :: w ++ s)).bind _ = _
    rw [hname]
    show (readAttributes (s.length + 1) s).bind _ = _
    rw [hs s.length (le_refl _)]
    rfl
  · rename_i hopen
    exact absurd rfl (hopen (c :: w ++ s))

theorem attributeValue?_isSome_of_isSpace {s : List Char} (hs : ∀ c ∈ s, isSpace c = true) :
    (attributeValue? s).isSome = true := by
  have hgo : ∀ n s, (∀ c ∈ s, isSpace c = true) → s.length ≤ n →
      (attributeValue?.go n s).isSome = true := by
    intro n
    induction n with
    | zero =>
      intro s _ hn
      rw [List.length_eq_zero_iff.1 (Nat.le_zero.1 hn)]
      rfl
    | succ n ih =>
      intro s hs hn
      unfold attributeValue?.go
      split
      · rfl
      · rename_i heq
        nomatch heq
      · have := hs '&' List.mem_cons_self
        nomatch this
      · rename_i s' heq
        obtain rfl := Nat.succ.inj heq
        rw [Option.isSome_map]
        refine ih s' (fun c hc => hs c (by simp [hc])) ?_
        rw [List.length_cons, List.length_cons] at hn
        omega
      · rename_i s' _ _ heq
        obtain rfl := Nat.succ.inj heq
        rw [Option.isSome_map]
        refine ih s' (fun c hc => hs c (List.mem_cons_of_mem _ hc)) ?_
        rw [List.length_cons] at hn
        omega
  exact hgo _ s hs (le_refl _)

theorem isText_of_isSpace {s : List Char} (hs : ∀ c ∈ s, isSpace c = true) : isText s = true := by
  have hlegal : s.all isLegal = true :=
    List.all_eq_true.2 fun c hc => isLegal_of_isSpace (hs c hc)
  have hmark : Text.occursIn [']', ']', '>'] s = false := by
    refine Bool.eq_false_iff.2 fun h => ?_
    have hmem : ']' ∈ s := (occursIn_iff.1 h).subset (by simp)
    nomatch hs _ hmem
  unfold isText
  rw [hlegal, hmark, attributeValue?_isSome_of_isSpace hs]
  rfl

/-- Text before a tag, or at the end, is read as one token. -/
theorem readToken_text {s rest : List Char} (hne : s ≠ []) (htag : '<' ∉ s) (hs : isText s = true)
    (hrest : ∀ c, rest.head? = some c → c = '<') : readToken (s ++ rest) = some (.text s, rest) := by
  have hinside : ∀ c ∈ s, decide (c ≠ '<') = true := by
    rintro c hc
    refine decide_eq_true ?_
    rintro rfl
    exact htag hc
  have hbehind : ∀ c, rest.head? = some c → decide (c ≠ '<') = false := fun c hc =>
    decide_eq_false fun hne => hne (hrest c hc)
  have hfront : ∀ r, s ++ rest ≠ '<' :: r := by
    intro r heq
    cases s with
    | nil => exact hne rfl
    | cons c s => exact htag (by rw [(List.cons.inj heq).1]; exact List.mem_cons_self)
  unfold readToken
  split
  · exact absurd ‹_› (hfront _)
  · exact absurd ‹_› (hfront _)
  · exact absurd ‹_› (hfront _)
  · exact absurd ‹_› (hfront _)
  · exact absurd ‹_› (hfront _)
  · simp only [takeWhile_run hinside hbehind, dropWhile_run hinside hbehind, hs, if_true]

/-- Space before a tag, or at the end, is read as text. -/
theorem readToken_space {s rest : List Char} (hne : s ≠ []) (hs : ∀ c ∈ s, isSpace c = true)
    (hrest : rest.head?.all (· = '<') = true) :
    readToken (s ++ rest) = some (.text s, rest) := by
  refine readToken_text hne (fun hmem => by nomatch hs _ hmem) (isText_of_isSpace hs) fun c hc => ?_
  rw [hc] at hrest
  exact of_decide_eq_true hrest

/-- A text is read as a row of tokens. -/
def TokensRead (s : List Char) (ts : List Token) : Prop :=
  ∀ n, s.length ≤ n → readTokens n s = some ts

theorem tokensRead_nil : TokensRead [] [] := fun n _ => by rw [readTokens]

theorem TokensRead.cons {s rest : List Char} {a : Token} {ts : List Token}
    (h : TokensRead rest ts) (hread : readToken s = some (a, rest))
    (hlength : rest.length < s.length) : TokensRead s (a :: ts) := by
  intro n hn
  cases n with
  | zero => omega
  | succ n =>
    cases s with
    | nil => nomatch hlength
    | cons c s =>
      rw [readTokens, hread]
      · show (readTokens n rest).bind _ = _
        rw [h n (by omega)]
        rfl
      · nofun

end Xml

/-! ## The text of a descriptor -/

namespace DescriptorFormat

open Xml

variable {f : DescriptorFormat} {d : Descriptor} {e : FontEntry} {es : List FontEntry} {n : Nat}

theorem escapeChar_of_isDigit {c : Char} (h : c.isDigit = true) : escapeChar c = [c] := by
  rcases escapeChar_cases c with ⟨heq, -⟩ | ⟨w, heq, -⟩
  · exact heq
  · unfold escapeChar at heq
    split at heq
    · nomatch h
    · nomatch h
    · nomatch h
    · nomatch h
    · nomatch h
    · exact absurd (List.cons.inj heq).1 (by rintro rfl; nomatch h)

theorem escape_toDigits (n : Nat) :
    (Nat.toDigits 10 n).flatMap escapeChar = Nat.toDigits 10 n := by
  have hdigits : ∀ c ∈ Nat.toDigits 10 n, escapeChar c = [c] := fun c hc =>
    escapeChar_of_isDigit (Nat.isDigit_of_mem_toDigits (by decide) (by decide) hc)
  rw [List.flatMap_congr hdigits, List.flatMap_singleton']

theorem escape_name (style : FontStyle) :
    style.name.toList.flatMap escapeChar = style.name.toList := by
  cases style <;> rfl

/-- The tag of a font. -/
def fontText (e : FontEntry) : List Char :=
  '<' :: 'f' :: ['o', 'n', 't'] ++ (attributeText "app:fontStyle".toList e.style.name.toList ++
    (attributeText "app:fontWeight".toList (toString e.weight).toList ++
      (attributeText "app:font".toList e.fontRef.toList ++ ['/', '>'])))

theorem toList_fontLine (f : DescriptorFormat) (e : FontEntry) :
    (f.fontLine e).toList = f.indent.toList ++ (fontText e ++ ['\n']) := by
  simp [fontLine, fontText, attributeText, escape, escape_toDigits, escape_name]

/-- The text from behind the root tag of a descriptor with these fonts. -/
def bodyText (f : DescriptorFormat) : List FontEntry → List Char
  | [] => '\n' :: "</font-family>\n".toList
  | e :: es => '\n' :: f.indent.toList ++ (fontText e ++ bodyText f es)

theorem bodyText_eq (f : DescriptorFormat) (es : List FontEntry) :
    '\n' :: ((es.map f.fontLine).flatMap String.toList ++ "</font-family>\n".toList) =
      bodyText f es := by
  induction es with
  | nil => rfl
  | cons e es ih =>
    rw [bodyText, ← ih, List.map_cons, List.flatMap_cons, toList_fontLine]
    simp

/-- The declaration and the line break after it, if there is one. -/
def headText (f : DescriptorFormat) : List Char :=
  if f.declaration then "<?xml version=\"1.0\" encoding=\"utf-8\"?>\n".toList else []

theorem toList_write (f : DescriptorFormat) (d : Descriptor) :
    (f.write d).toList = f.headText ++ ('<' :: 'f' :: "ont-family".toList ++
      (attributeText "xmlns:app".toList d.namespaceUri.toList ++
        if d.entries = [] then '/' :: '>' :: ['\n'] else '>' :: bodyText f d.entries)) := by
  have hhead : (if f.declaration then "<?xml version=\"1.0\" encoding=\"utf-8\"?>\n"
      else "").toList = f.headText := by
    unfold headText
    split <;> rfl
  unfold write
  simp only
  split
  · simp [hhead, attributeText, escape]
  · rw [← bodyText_eq]
    simp [hhead, attributeText, escape, String.toList_join]

/-! ## The tokens of a descriptor -/

/-- The name of the root. -/
def familyName : Name := ⟨"", "font-family"⟩

/-- The token that opens the root, or is all of it. -/
def familyToken (uri : String) (closed : Bool) : Token :=
  .startTag familyName [⟨⟨"xmlns", "app"⟩, uri⟩] closed

/-- The token of a font. -/
def fontToken (e : FontEntry) : Token :=
  .startTag ⟨"", "font"⟩ [⟨⟨"app", "fontStyle"⟩, e.style.name⟩,
    ⟨⟨"app", "fontWeight"⟩, toString e.weight⟩, ⟨⟨"app", "font"⟩, e.fontRef⟩] true

/-- The tokens from behind the root tag of a descriptor with these fonts. -/
def bodyTokens (f : DescriptorFormat) : List FontEntry → List Token
  | [] => [.text ['\n'], .endTag familyName, .text ['\n']]
  | e :: es => .text ('\n' :: f.indent.toList) :: fontToken e :: bodyTokens f es

theorem plain_name (style : FontStyle) : Plain style.name := by
  cases style <;> decide

theorem isPlain_of_isDigit {c : Char} (h : c.isDigit = true) : isPlain c = true := by
  have hspace : isSpace c = false := by
    refine Bool.eq_false_iff.2 fun hspace => ?_
    unfold isSpace at hspace
    simp only [Bool.or_eq_true, decide_eq_true_eq] at hspace
    rcases hspace with ((rfl | rfl) | rfl) | rfl <;> nomatch h
  obtain ⟨hlow, hhigh⟩ : 48 ≤ c.toNat ∧ c.toNat ≤ 57 := Char.isDigit_iff_toNat.1 h
  have hlegal : isLegal c = true := by
    unfold isLegal
    rw [if_neg (by omega), Bool.and_eq_true, decide_eq_true_eq, decide_eq_true_eq]
    omega
  unfold isPlain
  rw [hlegal, hspace, Bool.not_false, Bool.or_true]
  rfl

theorem plain_toString (n : Nat) : Plain (toString n) := by
  intro c hc
  rw [Nat.toString_eq_ofList_toDigits, String.toList_ofList] at hc
  exact isPlain_of_isDigit (Nat.isDigit_of_mem_toDigits (by decide) (by decide) hc)

theorem readToken_font (he : Plain e.fontRef) (rest : List Char) :
    readToken (fontText e ++ rest) = some (fontToken e, rest) := by
  have hfont := (attributesRead_closed rest).cons (m := ⟨"app", "font"⟩) (c := 'a')
    (w := "pp:font".toList) he (fun _ => rfl) rfl
  have hweight := hfont.cons (m := ⟨"app", "fontWeight"⟩) (c := 'a')
    (w := "pp:fontWeight".toList) (plain_toString e.weight) (fun _ => rfl) rfl
  have hstyle := hweight.cons (m := ⟨"app", "fontStyle"⟩) (c := 'a')
    (w := "pp:fontStyle".toList) (plain_name e.style) (fun _ => rfl) rfl
  have htoken := readToken_startTag (c := 'f') (w := ['o', 'n', 't']) (m := ⟨"", "font"⟩)
    rfl rfl hstyle
  refine Eq.trans (congrArg readToken ?_) htoken
  simp [fontText]

theorem tokensRead_body (hf : ∀ c ∈ f.indent.toList, isSpace c = true)
    (hes : ∀ e ∈ es, Plain e.fontRef) : TokensRead (bodyText f es) (bodyTokens f es) := by
  induction es with
  | nil =>
    rw [bodyText, bodyTokens]
    exact .cons (.cons (.cons tokensRead_nil rfl (by decide)) rfl (by decide)) rfl (by decide)
  | cons e es ih =>
    have hrest := ih fun x hx => hes x (List.mem_cons_of_mem _ hx)
    have hfont := hrest.cons (readToken_font (hes e List.mem_cons_self) _)
      (by simp only [fontText, List.length_append, List.length_cons]; omega)
    refine hfont.cons (readToken_space (s := '\n' :: f.indent.toList) nofun ?_ rfl)
      (by simp only [bodyText, List.length_append, List.length_cons]; omega)
    intro c hc
    rcases List.mem_cons.1 hc with rfl | hc
    · rfl
    · exact hf c hc

/-- All tokens of a descriptor. -/
def tokens (f : DescriptorFormat) (d : Descriptor) : List Token :=
  (if f.declaration then [.text ['\n']] else []) ++
    familyToken d.namespaceUri (d.entries = []) ::
      if d.entries = [] then [.text ['\n']] else bodyTokens f d.entries

theorem tokensRead_root (hf : ∀ c ∈ f.indent.toList, isSpace c = true)
    (huri : Plain d.namespaceUri) (hes : ∀ e ∈ d.entries, Plain e.fontRef) :
    TokensRead ('<' :: 'f' :: "ont-family".toList ++
      (attributeText "xmlns:app".toList d.namespaceUri.toList ++
        if d.entries = [] then '/' :: '>' :: ['\n'] else '>' :: bodyText f d.entries))
      (familyToken d.namespaceUri (d.entries = []) ::
        if d.entries = [] then [.text ['\n']] else bodyTokens f d.entries) := by
  have hattribute : ∀ {closed s rest}, AttributesRead s [] closed rest →
      readToken ('<' :: 'f' :: "ont-family".toList ++
        (attributeText "xmlns:app".toList d.namespaceUri.toList ++ s)) =
          some (familyToken d.namespaceUri closed, rest) := fun h =>
    readToken_startTag (m := familyName) rfl rfl
      (h.cons (m := ⟨"xmlns", "app"⟩) (c := 'x') (w := "mlns:app".toList) huri (fun _ => rfl) rfl)
  by_cases hnil : d.entries = []
  · simp only [hnil, if_true, decide_true]
    exact .cons (.cons tokensRead_nil rfl (by decide)) (hattribute (attributesRead_closed _))
      (by simp only [List.length_append, List.length_cons]; omega)
  · simp only [hnil, if_false, decide_false]
    exact .cons (tokensRead_body hf hes) (hattribute (attributesRead_open _))
      (by simp only [List.length_append, List.length_cons]; omega)

theorem tokens?_write (hf : ∀ c ∈ f.indent.toList, isSpace c = true)
    (huri : Plain d.namespaceUri) (hes : ∀ e ∈ d.entries, Plain e.fontRef) :
    tokens? (f.write d).toList = some (f.tokens d) := by
  have hroot := tokensRead_root hf huri hes
  rw [toList_write]
  unfold tokens? headText tokens
  cases f.declaration with
  | true =>
    show readTokens _ ('\n' :: _) = _
    exact (hroot.cons (a := .text ['\n']) (s := '\n' :: _) rfl (by simp)) _ (le_refl _)
  | false => exact hroot _ (le_refl _)

/-! ## The tree of a descriptor -/

/-- The element of a font. -/
def fontElement (uri : String) (e : FontEntry) : Element :=
  .mk "font" [("app", uri)] [⟨some uri, "fontStyle", e.style.name⟩,
    ⟨some uri, "fontWeight", toString e.weight⟩, ⟨some uri, "font", e.fontRef⟩] []

/-- The root element of a descriptor. -/
def rootElement (d : Descriptor) : Element :=
  .mk "font-family" [("app", d.namespaceUri)] [] (d.entries.map (fontElement d.namespaceUri))

theorem open?_family {uri : String} (hxml : uri ≠ xmlUri) (hxmlns : uri ≠ xmlnsUri) :
    Element.open? [] familyName [⟨⟨"xmlns", "app"⟩, uri⟩] =
      some (.mk "font-family" [("app", uri)] [] []) := by
  have hbindings : bindings? [⟨⟨"xmlns", "app"⟩, uri⟩] = some [("app", uri)] := by
    show (if uri = xmlnsUri then none else if uri = xmlUri then none
      else some [("app", uri)]) = some [("app", uri)]
    rw [if_neg hxmlns, if_neg hxml]
  unfold Element.open?
  rw [hbindings]
  rfl

theorem open?_font (uri : String) (e : FontEntry) :
    Element.open? [("app", uri)] ⟨"", "font"⟩ [⟨⟨"app", "fontStyle"⟩, e.style.name⟩,
      ⟨⟨"app", "fontWeight"⟩, toString e.weight⟩, ⟨⟨"app", "font"⟩, e.fontRef⟩] =
        some (fontElement uri e) := by
  have hnodup : decide [(some uri, "fontStyle"), (some uri, "fontWeight"),
      (some uri, "font")].Nodup = true := decide_eq_true (by simp)
  show (if decide ([] : List String).Nodup && decide [(some uri, "fontStyle"),
    (some uri, "fontWeight"), (some uri, "font")].Nodup && true && true then
      some (fontElement uri e) else none) = _
  rw [hnodup]
  rfl

/-- The root while it is read, with the fonts read so far, the latest first. -/
def openFamily (uri : String) (fonts : List Element) : OpenElement :=
  ⟨familyName, .mk "font-family" [("app", uri)] [] fonts⟩

theorem foldlM_bodyTokens (f : DescriptorFormat) (uri : String) (es : List FontEntry)
    (fonts : List Element) :
    (bodyTokens f es).foldlM TreeBuilder.step ⟨none, [openFamily uri fonts]⟩ =
      some ⟨some (.mk "font-family" [("app", uri)] []
        (fonts.reverse ++ es.map (fontElement uri))), []⟩ := by
  induction es generalizing fonts with
  | nil =>
    rw [List.map_nil, List.append_nil]
    rfl
  | cons e es ih =>
    have hfont : TreeBuilder.step ⟨none, [openFamily uri fonts]⟩ (fontToken e) =
        some ⟨none, [openFamily uri (fontElement uri e :: fonts)]⟩ := by
      show (Element.open? [("app", uri)] _ _).bind _ = _
      rw [open?_font]
      rfl
    rw [bodyTokens, List.foldlM_cons]
    show (fontToken e :: bodyTokens f es).foldlM TreeBuilder.step ⟨none, [openFamily uri fonts]⟩ = _
    rw [List.foldlM_cons, hfont]
    show (bodyTokens f es).foldlM TreeBuilder.step ⟨none, [openFamily uri (fontElement uri e :: fonts)]⟩ = _
    rw [ih]
    simp

theorem ofTokens?_tokens (hxml : d.namespaceUri ≠ xmlUri) (hxmlns : d.namespaceUri ≠ xmlnsUri) :
    Element.ofTokens? (f.tokens d) = some (rootElement d) := by
  have hroot : (familyToken d.namespaceUri (d.entries = []) ::
      if d.entries = [] then [.text ['\n']] else bodyTokens f d.entries).foldlM TreeBuilder.step
        ⟨none, []⟩ = some ⟨some (rootElement d), []⟩ := by
    have hopen : ∀ closed, TreeBuilder.step ⟨none, []⟩ (familyToken d.namespaceUri closed) =
        if closed then some ⟨some (.mk "font-family" [("app", d.namespaceUri)] [] []), []⟩
        else some ⟨none, [openFamily d.namespaceUri []]⟩ := by
      intro closed
      show (Element.open? [] familyName _).bind _ = _
      rw [open?_family hxml hxmlns]
      cases closed <;> rfl
    rw [List.foldlM_cons, hopen]
    by_cases hnil : d.entries = []
    · simp only [hnil, if_true, decide_true, rootElement, List.map_nil]
      rfl
    · simp only [hnil, if_false, decide_false]
      show (bodyTokens f d.entries).foldlM TreeBuilder.step _ = _
      rw [foldlM_bodyTokens]
      rfl
  have htokens : (f.tokens d).foldlM TreeBuilder.step ⟨none, []⟩ =
      some ⟨some (rootElement d), []⟩ := by
    unfold tokens
    cases f.declaration with
    | true => exact hroot
    | false => exact hroot
  unfold Element.ofTokens?
  rw [htokens]
  rfl

end DescriptorFormat

/-! ## The entries of a descriptor -/

namespace Descriptor

open DescriptorFormat

variable {f : DescriptorFormat} {d d' : Descriptor} {e : FontEntry} {es : List FontEntry}
  {uri : String} {i : Nat} {element : Xml.Element}

theorem readEntry_of_attributes {s w : String}
    (hstyle : element.attribute? uri "fontStyle" = some s)
    (hname : FontStyle.ofName? (String.ofList (Unicode.trim s.toList)) = some e.style)
    (hweight : element.attribute? uri "fontWeight" = some w)
    (hvalue : readWeight? w = some e.weight)
    (hfont : element.attribute? uri "font" = some e.fontRef) :
    readEntry uri i element = .ok e := by
  unfold readEntry
  simp only [hstyle, hweight, hfont, bind, Except.bind, hname, hvalue]
  rfl

theorem isBlank_of_isDigit {c : Char} (h : c.isDigit = true) : Unicode.isBlank c = false := by
  obtain ⟨hlow, hhigh⟩ : 48 ≤ c.toNat ∧ c.toNat ≤ 57 := Char.isDigit_iff_toNat.1 h
  simp [Unicode.isBlank, Unicode.inRanges, Unicode.blankRanges]
  omega

theorem readWeight?_toString {n : Nat} (h : n < shortLimit) :
    readWeight? (toString n) = some n := by
  have hblank : ∀ c ∈ Nat.toDigits 10 n, Unicode.isBlank c = false := fun c hc =>
    isBlank_of_isDigit (Nat.isDigit_of_mem_toDigits (by decide) (by decide) hc)
  have htrim : Unicode.trim (Nat.toDigits 10 n) = Nat.toDigits 10 n :=
    trim_eq_self (fun c hc => hblank c (List.mem_of_mem_head? hc))
      fun c hc => hblank c (List.mem_of_getLast? hc)
  unfold readWeight?
  rw [Nat.toString_eq_ofList_toDigits, String.toList_ofList, htrim]
  exact readNat16?_eq_some_iff.2 ⟨readNat?_toDigits n, h⟩

theorem readEntry_fontElement (h : e.weight < shortLimit) :
    readEntry uri i (fontElement uri e) = .ok e := by
  have hname : FontStyle.ofName? (String.ofList (Unicode.trim e.style.name.toList)) =
      some e.style := by
    cases e.style <;> decide +kernel
  refine readEntry_of_attributes (s := e.style.name) (w := toString e.weight) ?_ hname ?_
    (readWeight?_toString h) ?_
  · simp [Xml.Element.attribute?, Xml.Element.attributes, fontElement]
  · simp [Xml.Element.attribute?, Xml.Element.attributes, fontElement]
  · simp [Xml.Element.attribute?, Xml.Element.attributes, fontElement]

theorem place_of_not_mem (h : e.key ∉ keysOf es) : place e es = es ++ [e] := by
  induction es with
  | nil => rfl
  | cons x xs ih =>
    obtain ⟨hx, hxs⟩ := not_or.1 (mt List.mem_cons.2 h)
    rw [place, if_neg (Ne.symm hx), ih hxs]
    rfl

theorem readEntries_fontElements (hsize : ∀ e ∈ es, e.weight < shortLimit)
    (hkeys : (keysOf (d.entries ++ es)).Nodup) :
    d.readEntries i (es.map (fontElement d.namespaceUri)) =
      .ok { d with entries := d.entries ++ es } := by
  induction es generalizing d i with
  | nil => rw [List.append_nil, List.map_nil, readEntries]
  | cons e es ih =>
    have hnot : e.key ∉ keysOf d.entries := by
      rw [keysOf, List.map_append, List.nodup_append] at hkeys
      exact fun hmem => hkeys.2.2 _ hmem _ List.mem_cons_self rfl
    have hhead : d.upsert e = { d with entries := d.entries ++ [e] } := by
      rw [upsert, place_of_not_mem hnot]
    rw [List.map_cons, readEntries, readEntry_fontElement (hsize e List.mem_cons_self)]
    show (d.upsert e).readEntries (i + 1) (es.map (fontElement d.namespaceUri)) = _
    rw [hhead]
    refine (ih (d := { d with entries := d.entries ++ [e] })
      (fun x hx => hsize x (List.mem_cons_of_mem _ hx)) ?_).trans ?_
    · rwa [List.append_assoc]
    · rw [List.append_assoc]
      rfl

/-- A descriptor that attribute values can hold. -/
structure Plain (d : Descriptor) : Prop where
  uri : Xml.Plain d.namespaceUri
  ne_xml : d.namespaceUri ≠ Xml.xmlUri
  ne_xmlns : d.namespaceUri ≠ Xml.xmlnsUri
  refs : ∀ e ∈ d.entries, Xml.Plain e.fontRef

/-- A descriptor whose entries can be told apart, with weights that can be read. -/
structure Sound (d : Descriptor) : Prop where
  nodup : d.keys.Nodup
  weights : ∀ e ∈ d.entries, e.weight < shortLimit

theorem plain_empty : empty.Plain :=
  ⟨by decide, by decide, by decide, nofun⟩

theorem sound_empty : empty.Sound := ⟨List.nodup_nil, nofun⟩

theorem Plain.merge {files : List FontFile} (h : d.Plain)
    (hfiles : ∀ f ∈ files, Xml.Plain (fontResourceRef f.name)) : (d.merge files).Plain := by
  have huri := namespaceUri_merge d files
  refine ⟨huri ▸ h.uri, huri ▸ h.ne_xml, huri ▸ h.ne_xmlns, fun e he => ?_⟩
  rcases mem_merge he with he | ⟨f, hf, rfl⟩
  · exact h.refs e he
  · exact hfiles f hf

theorem Sound.merge {files : List FontFile} (h : d.Sound)
    (hfiles : ∀ f ∈ files, f.weight < shortLimit) : (d.merge files).Sound := by
  refine ⟨nodup_keys_merge h.nodup, fun e he => ?_⟩
  rcases mem_merge he with he | ⟨f, hf, rfl⟩
  · exact h.weights e he
  · exact hfiles f hf

theorem parse?_write (hf : ∀ c ∈ f.indent.toList, Xml.isSpace c = true) (hd : d.Plain) :
    Xml.parse? (f.write d) = some (rootElement d) := by
  unfold Xml.parse?
  rw [tokens?_write hf hd.uri hd.refs]
  exact ofTokens?_tokens hd.ne_xml hd.ne_xmlns

theorem ofElement_rootElement (hsound : d.Sound) : ofElement (rootElement d) = .ok d := by
  have hchildren : (rootElement d).children.filter (·.localName = "font") =
      d.entries.map (fontElement d.namespaceUri) := by
    refine List.filter_eq_self.2 fun element helement => ?_
    obtain ⟨e, -, rfl⟩ := List.mem_map.1 helement
    rfl
  show readEntries ⟨d.namespaceUri, []⟩ 0 ((rootElement d).children.filter _) = _
  rw [hchildren]
  exact readEntries_fontElements (d := ⟨d.namespaceUri, []⟩) hsound.weights hsound.nodup

/-- What a run writes is read back by the next one. -/
theorem ofXml_toXml (hd : d.Plain) (hsound : d.Sound) : ofXml d.toXml = .ok d := by
  unfold ofXml toXml
  rw [parse?_write (List.all_eq_true.1 (by decide)) hd]
  exact ofElement_rootElement hsound

/-- A descriptor that is written in any layout is read back. -/
theorem ofXml_write (hf : ∀ c ∈ f.indent.toList, Xml.isSpace c = true) (hd : d.Plain)
    (hsound : d.Sound) : ofXml (f.write d) = .ok d := by
  unfold ofXml
  rw [parse?_write hf hd]
  exact ofElement_rootElement hsound

/-- A descriptor whose texts hold all that has to be escaped, and the least and the greatest
weight. -/
def escapedDescriptor : Descriptor where
  namespaceUri := "urn:a&b=\"<c>\"'"
  entries := [⟨.normal, 0, "@font/a&amp;<b> 'c' \"d\""⟩, ⟨.italic, 65535, ""⟩, ⟨.normal, 65535, "]]>"⟩]

theorem ofXml_write_escaped :
    (∀ c ∈ "\t\r\n".toList, Xml.isSpace c = true) ∧ escapedDescriptor.Plain ∧
      escapedDescriptor.Sound ∧
      ofXml ((DescriptorFormat.mk "\t\r\n" false).write escapedDescriptor) =
        .ok escapedDescriptor := by
  have hf : ∀ c ∈ "\t\r\n".toList, Xml.isSpace c = true := List.all_eq_true.1 (by decide)
  have hd : escapedDescriptor.Plain := ⟨by decide, by decide, by decide, by decide⟩
  have hsound : escapedDescriptor.Sound := ⟨by decide, by decide⟩
  exact ⟨hf, hd, hsound, ofXml_write (f := ⟨"\t\r\n", false⟩) hf hd hsound⟩

end Descriptor

end AndroidFonts
