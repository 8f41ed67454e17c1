/-
# `AndroidFonts.Proofs.Xml.Reading` — the pieces of a document are read as tokens

The pieces of a text are followed from the front.  What the reader does with a piece depends on what
follows only in that the piece has to end there: behind a name stands no further character of a name,
behind a text there is a tag.  So each piece is read as one token, whatever stands behind it.

A piece that ends with a mark of several characters is read up to the first place of the mark
(`readUntil_mark`).  That this is the end of the piece does not follow from the text in front not
holding the mark: the mark could begin in the text and end in the mark itself.  It cannot, since the
last character of each mark stands nowhere else in it.

The declaration at the front of a document is the one piece that is read in two ways, by the character
behind its name (`DeclarationText.cases`).
-/
import AndroidFonts.Proofs.Descriptor.RoundTrip
import AndroidFonts.Proofs.Xml.Grammar

namespace AndroidFonts.Xml

open Text

/-! ## White space and names -/

variable {w s r rest : List Char} {name : Name}

theorem skipSpaces_append (hw : Spaces w) (hr : ∀ c, r.head? = some c → isSpace c = false) :
    skipSpaces (w ++ r) = r :=
  dropWhile_run hw hr

/-- Whether a name ends in front of a text. -/
def EndsName (r : List Char) : Prop := ∀ c, r.head? = some c → isNameChar c = false ∧ c ≠ ':'

theorem not_isNameChar_of_isSpace {c : Char} (h : isSpace c = true) :
    isNameChar c = false ∧ c ≠ ':' := by
  unfold isSpace at h
  simp only [Bool.or_eq_true, decide_eq_true_eq] at h
  rcases h with ((rfl | rfl) | rfl) | rfl <;> decide

theorem endsName_cons {c : Char} (hc : isNameChar c = false ∧ c ≠ ':') (r : List Char) :
    EndsName (c :: r) := by
  intro d hd
  obtain rfl := Option.some.inj hd
  exact hc

/-- White space ends a name, and so does what follows if there is none. -/
theorem EndsName.append (hw : Spaces w) (hr : EndsName r) : EndsName (w ++ r) := by
  cases w with
  | nil => exact hr
  | cons c w => exact endsName_cons (not_isNameChar_of_isSpace (hw c List.mem_cons_self)) _

theorem isNameChar_of_isNamePart (h : isNamePart w = true) : ∀ c ∈ w, isNameChar c = true := by
  cases w with
  | nil => nofun
  | cons c w =>
    obtain ⟨hstart, hrest⟩ := (Bool.and_eq_true _ _).mp h
    intro d hd
    rcases List.mem_cons.1 hd with rfl | hd
    · unfold isNameChar
      rw [hstart]
      rfl
    · exact List.all_eq_true.1 hrest d hd

theorem exists_start_of_isNamePart (h : isNamePart w = true) :
    ∃ c t, w = c :: t ∧ isNameStart c = true := by
  cases w with
  | nil => nomatch h
  | cons c t => exact ⟨c, t, rfl, ((Bool.and_eq_true _ _).mp h).1⟩

theorem NameText.exists_start (h : NameText w name) : ∃ c t, w = c :: t ∧ isNameStart c = true := by
  cases h with
  | plain hw => exact exists_start_of_isNamePart hw
  | qualified hq hw =>
    obtain ⟨c, t, rfl, hc⟩ := exists_start_of_isNamePart hq
    exact ⟨c, _, rfl, hc⟩

theorem readName_append (h : NameText w name) (hr : EndsName r) :
    readName (w ++ r) = some (name, r) := by
  have hstop : ∀ c, r.head? = some c → isNameChar c = false := fun c hc => (hr c hc).1
  have hcolon : ∀ t, r ≠ ':' :: t := by
    rintro t rfl
    exact (hr ':' rfl).2 rfl
  cases h with
  | plain hw =>
    have hchars := isNameChar_of_isNamePart hw
    unfold readName
    rw [takeWhile_run hchars hstop, dropWhile_run hchars hstop]
    split
    · exact absurd rfl (hcolon _)
    · show (if isNamePart w then some _ else none : Option Name).map _ = _
      rw [hw]
      rfl
  | @qualified q w hq hw =>
    have hchars := isNameChar_of_isNamePart hw
    have hmark : ∀ c, (':' :: (w ++ r)).head? = some c → isNameChar c = false := by
      intro c hc
      obtain rfl := Option.some.inj hc
      decide
    have htext : q ++ ':' :: w ++ r = q ++ ':' :: (w ++ r) := by simp
    unfold readName
    rw [htext, takeWhile_run (isNameChar_of_isNamePart hq) hmark,
      dropWhile_run (isNameChar_of_isNamePart hq) hmark]
    simp only [takeWhile_run hchars hstop, dropWhile_run hchars hstop]
    rw [Name.ofParts?, hq, hw, Bool.or_true]
    rfl

/-! ## Values -/

theorem readCode_append {base : Nat} {digit? : Char → Option Nat} {c : Char}
    (h : IsCode base digit? w c) (hmark : digit? ';' = none) (r : List Char) :
    readCode base digit? (w ++ ';' :: r) = some (c, r) := by
  have hstop : ∀ d, (';' :: r).head? = some d → (digit? d).isSome = false := by
    intro d hd
    obtain rfl := Option.some.inj hd
    rw [hmark]
    rfl
  have hcode : charOfCode? c.toNat = some c := by
    unfold charOfCode?
    have hvalid : c.toNat.isValidChar := c.valid
    have hsize : c.toNat < 0x100000000 := by
      unfold Nat.isValidChar at hvalid
      omega
    rw [if_neg (Nat.not_le.2 hsize), if_pos hvalid, Char.ofNat_toNat]
    simp only [h.legal, if_true]
  unfold readCode
  simp only [takeWhile_run h.digits hstop, dropWhile_run h.digits hstop]
  obtain ⟨d, t, rfl⟩ := List.exists_cons_of_ne_nil h.ne_nil
  simp only [h.value, hcode, Option.map_some]

theorem readReference_append {c : Char} (h : Reference w c) (r : List Char) :
    readReference (w ++ r) = some (c, r) := by
  cases h with
  | quot => rfl
  | amp => rfl
  | apos => rfl
  | lt => rfl
  | gt => rfl
  | @decimal w _ hw =>
    have hcode := readCode_append hw rfl r
    obtain ⟨d, t, rfl⟩ := List.exists_cons_of_ne_nil hw.ne_nil
    have hx : d ≠ 'x' := by
      rintro rfl
      nomatch hw.digits 'x' List.mem_cons_self
    rw [← hcode, List.cons_append, List.append_assoc]
    unfold readReference
    split
    · rename_i heq
      exact absurd (List.cons.inj (List.cons.inj heq).2).1 hx
    · rename_i heq
      rw [← (List.cons.inj heq).2]
      rfl
    · rename_i hhash
      exact absurd rfl (hhash _)
  | hexadecimal hw =>
    have hcode := readCode_append hw rfl r
    rw [← hcode]
    simp only [List.cons_append, List.append_assoc, List.nil_append]
    rfl

theorem attributeValue?_of_denotes {value : List Char} (h : Denotes s value) :
    attributeValue? s = some value := by
  have hgo : ∀ n, s.length ≤ n → attributeValue?.go n s = some value := by
    induction h with
    | nil => exact fun n _ => by rw [attributeValue?.go]
    | @plain c s value hamp hspace _ ih =>
      intro n hn
      rw [List.length_cons] at hn
      obtain ⟨n, rfl⟩ : ∃ m, n = m + 1 := ⟨n - 1, by omega⟩
      have hreturn : c ≠ '\r' := by
        rintro rfl
        exact absurd hspace (by decide)
      rw [attributeValue?.go.eq_5 n c s (fun h => hamp h) (fun _ h _ => hreturn h),
        ih n (Nat.le_of_succ_le_succ hn), hspace]
      rfl
    | @space c s value hspace hfeed _ ih =>
      intro n hn
      rw [List.length_cons] at hn
      obtain ⟨n, rfl⟩ : ∃ m, n = m + 1 := ⟨n - 1, by omega⟩
      have hamp : c ≠ '&' := by
        rintro rfl
        exact absurd hspace (by decide)
      have hbreak : ∀ t, c = '\r' → s = '\n' :: t → False := by
        rintro t hc rfl
        exact hfeed hc rfl
      rw [attributeValue?.go.eq_5 n c s (fun h => hamp h) hbreak, ih n (Nat.le_of_succ_le_succ hn),
        hspace]
      rfl
    | @lineBreak s value _ ih =>
      intro n hn
      rw [List.length_cons, List.length_cons] at hn
      obtain ⟨n, rfl⟩ : ∃ m, n = m + 1 := ⟨n - 1, by omega⟩
      rw [attributeValue?.go.eq_4, ih n (by omega)]
      rfl
    | @reference w s value c hw _ ih =>
      intro n hn
      rw [List.length_cons, List.length_append] at hn
      obtain ⟨n, rfl⟩ : ∃ m, n = m + 1 := ⟨n - 1, by omega⟩
      rw [attributeValue?_go_amp (readReference_append hw s), ih n (by omega)]
      rfl
  exact hgo _ (le_refl _)

/-! ## Tags -/

theorem not_isSpace_of_isNameStart {c : Char} (h : isNameStart c = true) : isSpace c = false := by
  refine Bool.eq_false_iff.2 fun hspace => ?_
  unfold isSpace at hspace
  simp only [Bool.or_eq_true, decide_eq_true_eq] at hspace
  rcases hspace with ((rfl | rfl) | rfl) | rfl <;> exact absurd h (by decide)

theorem readQuoted_append {q raw : List Char} (h : QuotedText q raw) (r : List Char) :
    readQuoted (q ++ r) = some (raw, r) := by
  obtain @⟨before, behind, raw, quote, hbefore, hbehind, hquote, hlegal, -, hend⟩ := h
  have hspace : isSpace quote = false := by
    rcases hquote with rfl | rfl <;> rfl
  have hequals : skipSpaces (before ++ '=' :: (behind ++ quote :: (raw ++ [quote])) ++ r) =
      '=' :: (behind ++ quote :: (raw ++ quote :: r)) := by
    rw [List.append_assoc, skipSpaces_append hbefore]
    · simp
    · intro c hc
      obtain rfl := Option.some.inj hc
      rfl
  have hopen : skipSpaces (behind ++ quote :: (raw ++ quote :: r)) = quote :: (raw ++ quote :: r) := by
    refine skipSpaces_append hbehind fun c hc => ?_
    obtain rfl := Option.some.inj hc
    exact hspace
  have heither : (decide (quote = '"') || decide (quote = '\'')) = true := by
    simpa using hquote
  unfold readQuoted
  rw [hequals]
  simp only [hopen, heither, if_true]
  exact readUntil_quote hlegal hend r

theorem QuotedText.endsName {q raw : List Char} (h : QuotedText q raw) (r : List Char) :
    EndsName (q ++ r) := by
  obtain @⟨before, behind, raw, quote, hbefore, -, -, -, -, -⟩ := h
  rw [List.append_assoc]
  exact (endsName_cons (by decide) _).append hbefore

theorem readPair_append {q raw : List Char} (hname : NameText w name) (hq : QuotedText q raw)
    (r : List Char) : readPair (w ++ (q ++ r)) = some (name, raw, r) := by
  have htag : '<' ∉ raw := by
    cases hq
    assumption
  unfold readPair
  rw [readName_append hname (hq.endsName r)]
  show (readQuoted (q ++ r)).bind _ = _
  rw [readQuoted_append hq]
  exact if_neg htag

theorem readAttribute_append {a : RawAttribute} (h : AttributeText w a) (r : List Char) :
    readAttribute (w ++ r) = some (a, r) := by
  obtain @⟨w, q, raw, value, name, hname, hq, hvalue⟩ := h
  unfold readAttribute
  rw [List.append_assoc, readPair_append hname hq]
  show (attributeValue? raw).bind _ = _
  rw [attributeValue?_of_denotes hvalue]
  rfl

theorem AttributeText.exists_start {a : RawAttribute} (h : AttributeText w a) :
    ∃ c t, w = c :: t ∧ isNameStart c = true := by
  obtain @⟨w, q, raw, value, name, hname, -, -⟩ := h
  obtain ⟨c, t, rfl, hc⟩ := hname.exists_start
  exact ⟨c, _, rfl, hc⟩

theorem beginsAttribute_of_isNameStart {c : Char} (h : isNameStart c = true) :
    beginsAttribute c = true := by
  unfold beginsAttribute
  rw [not_isSpace_of_isNameStart h]
  simp only [Bool.not_false, Bool.true_and, Bool.and_eq_true, decide_eq_true_eq]
  refine ⟨?_, ?_⟩ <;>
  · rintro rfl
    exact absurd h (by decide)

theorem AttributesText.read {raw : List RawAttribute} {closed : Bool}
    (h : AttributesText s raw) (hr : AttributesRead r [] closed rest) :
    AttributesRead (s ++ r) raw closed rest := by
  induction h with
  | nil => exact hr
  | @cons gap w s a as hgap hne ha _ ih =>
    obtain ⟨c, t, rfl, hc⟩ := ha.exists_start
    have hread := ih.cons_of_read hgap hne (readAttribute_append ha _) (beginsAttribute_of_isNameStart hc)
    rwa [List.append_assoc, List.append_assoc]

theorem attributesRead_gap_open (hw : Spaces w) (rest : List Char) :
    AttributesRead (w ++ '>' :: rest) [] false rest := by
  intro n _
  rw [readAttributes, skipSpaces_append hw]
  · rfl
  · intro c hc
    obtain rfl := Option.some.inj hc
    rfl

theorem attributesRead_gap_closed (hw : Spaces w) (rest : List Char) :
    AttributesRead (w ++ '/' :: '>' :: rest) [] true rest := by
  intro n _
  rw [readAttributes, skipSpaces_append hw]
  · rfl
  · intro c hc
    obtain rfl := Option.some.inj hc
    rfl

/-- A start tag is read up to its end. -/
theorem TagText.readToken {raw : List RawAttribute} {closed : Bool} (h : TagText w name raw)
    (hr : ∀ gap, Spaces gap → AttributesRead (gap ++ r) [] closed rest)
    (hend : EndsName r) : readToken ('<' :: (w ++ r)) = some (.startTag name raw closed, rest) := by
  obtain @⟨w, s, gap, name, raw, hname, hattributes, hgap⟩ := h
  obtain ⟨c, t, rfl, hc⟩ := hname.exists_start
  have hends : EndsName (s ++ (gap ++ r)) := by
    cases hattributes with
    | nil =>
      show EndsName (gap ++ r)
      exact hend.append hgap
    | cons hspace hne _ _ =>
      obtain ⟨d, g, rfl⟩ := List.exists_cons_of_ne_nil hne
      exact endsName_cons (not_isNameChar_of_isSpace (hspace d List.mem_cons_self)) _
  have htoken := readToken_startTag (readName_append hname hends) hc (hattributes.read (hr gap hgap))
  rwa [List.append_assoc, List.append_assoc]

/-- An end tag is read as one token. -/
theorem readToken_endTag {gap : List Char} (h : NameText w name) (hgap : Spaces gap)
    (rest : List Char) :
    readToken ('<' :: '/' :: (w ++ (gap ++ '>' :: rest))) = some (.endTag name, rest) := by
  have hends : EndsName (gap ++ '>' :: rest) := (endsName_cons (by decide) _).append hgap
  have hskip : skipSpaces (gap ++ '>' :: rest) = '>' :: rest := by
    refine skipSpaces_append hgap fun c hc => ?_
    obtain rfl := Option.some.inj hc
    rfl
  show (readName (w ++ (gap ++ '>' :: rest))).bind _ = _
  rw [readName_append h hends, Option.bind_some]
  simp only [hskip]

/-! ## Text, literal sections and remarks -/

/-- The first place of a mark is where it stands, if the text in front of it does not hold the mark, and
the last character of the mark does not stand in the mark before. -/
theorem readUntil_mark {init : List Char} {c : Char} (hc : c ∉ init) (hs : ¬ init ++ [c] <:+: s)
    (hlegal : Legal s) (rest : List Char) :
    readUntil (init ++ [c]) (s ++ (init ++ [c] ++ rest)) = some (s, rest) := by
  have hcut : cut? (init ++ [c]) (s ++ (init ++ [c] ++ rest)) = some (s, rest) := by
    refine cut?_of_forall fun y z hyz hz ⟨t, ht⟩ => ?_
    rcases List.append_eq_append_iff.1 ht with ⟨a, rfl, -⟩ | ⟨b, hmark, hb⟩
    · exact hs ⟨y, a, by rw [hyz, List.append_assoc]⟩
    · rcases List.eq_nil_or_concat' b with rfl | ⟨b, d, rfl⟩
      · exact hs ⟨y, [], by rw [hyz, hmark, List.append_nil, List.append_nil]⟩
      · rw [← List.append_assoc] at hmark
        obtain ⟨rfl, hd⟩ := List.append_inj' hmark rfl
        obtain rfl := (List.cons.inj hd).1
        have hb : (z ++ b) ++ c :: rest = b ++ c :: t := by simpa using hb
        have hlength := congrArg List.length
          (append_cons_inj hc (fun hmem => hc (List.mem_append_right _ hmem)) hb).1
        rw [List.length_append] at hlength
        have := List.length_pos_of_ne_nil hz
        omega
  unfold readUntil
  rw [hcut]
  simp only [List.all_eq_true.2 hlegal, if_true]

theorem readComment_append (hlegal : Legal s) (hhyphens : ¬ "--".toList <:+: s)
    (hlast : s.getLast? ≠ some '-') (rest : List Char) :
    readComment (s ++ ("-->".toList ++ rest)) = some rest := by
  have hmark : ¬ "--".toList ++ ['>'] <:+: s := fun h =>
    hhyphens ((List.prefix_append _ _).isInfix.trans h)
  have hbody : readUntil ['-', '-', '>'] (s ++ ("-->".toList ++ rest)) = some (s, rest) :=
    readUntil_mark (by decide) hmark hlegal rest
  have hnone : occursIn ['-', '-'] s = false := Bool.eq_false_iff.2 fun h => hhyphens (occursIn_iff.1 h)
  unfold readComment
  rw [hbody]
  show (if (occursIn ['-', '-'] s || decide (s.getLast? = some '-')) = true then none
    else some rest) = _
  rw [hnone, decide_eq_false hlast]
  rfl

/-- The target of an instruction ends where the data behind it begin, or the instruction ends. -/
theorem endsName_instruction (hs : ∀ c, s.head? = some c → isSpace c = true) (rest : List Char) :
    EndsName (s ++ ("?>".toList ++ rest)) := by
  cases s with
  | nil => exact endsName_cons (by decide) _
  | cons c s => exact endsName_cons (not_isNameChar_of_isSpace (hs c rfl)) _

theorem readPlainName_append (hw : isNamePart w = true) (hr : EndsName r) :
    readPlainName (w ++ r) = some (w, r) := by
  obtain ⟨c, t, rfl, hc⟩ := exists_start_of_isNamePart hw
  have hchars : ∀ d ∈ c :: t, (isNameChar d || decide (d = ':')) = true := fun d hd => by
    rw [isNameChar_of_isNamePart hw d hd]
    rfl
  have hstop : ∀ d, r.head? = some d → (isNameChar d || decide (d = ':')) = false := by
    intro d hd
    rw [(hr d hd).1, decide_eq_false (hr d hd).2]
    rfl
  unfold readPlainName
  rw [List.cons_append]
  simp only [hc, Bool.true_or, if_true]
  rw [← List.cons_append, takeWhile_run hchars hstop, dropWhile_run hchars hstop]

theorem skipSpaces_suffix (s : List Char) : skipSpaces s <:+ s := List.dropWhile_suffix _

theorem skipSpaces_append_mark (s : List Char) (hr : ∀ c, r.head? = some c → isSpace c = false) :
    skipSpaces (s ++ r) = skipSpaces s ++ r := by
  induction s with
  | nil => exact skipSpaces_append (w := []) nofun hr
  | cons c s ih =>
    unfold skipSpaces at ih ⊢
    rw [List.cons_append, List.dropWhile_cons, List.dropWhile_cons]
    split
    · exact ih
    · rfl

theorem readInstruction_append {target : List Char} (htarget : isNamePart target = true)
    (hlegal : Legal s) (hmark : ¬ "?>".toList <:+: s)
    (hs : ∀ c, s.head? = some c → isSpace c = true) (rest : List Char) :
    readInstruction (target ++ (s ++ ("?>".toList ++ rest))) = some rest := by
  have hskip : skipSpaces (s ++ ("?>".toList ++ rest)) = skipSpaces s ++ ("?>".toList ++ rest) := by
    refine skipSpaces_append_mark s fun c hc => ?_
    obtain rfl : '?' = c := Option.some.inj hc
    rfl
  have hsuffix := skipSpaces_suffix s
  have hbody : readUntil ['?', '>'] (skipSpaces s ++ ("?>".toList ++ rest)) =
      some (skipSpaces s, rest) := by
    have hmark : ¬ ['?'] ++ ['>'] <:+: skipSpaces s := fun h => hmark (h.trans hsuffix.isInfix)
    exact readUntil_mark (by decide) hmark (fun c hc => hlegal c (hsuffix.subset hc)) rest
  unfold readInstruction
  rw [readPlainName_append htarget (endsName_instruction hs rest)]
  show (readUntil ['?', '>'] (skipSpaces (s ++ ("?>".toList ++ rest)))).bind _ = _
  rw [hskip, hbody]
  rfl

/-- The target of an instruction is not the word that a declaration begins with. -/
theorem not_declaration {target : List Char} (htarget : isNamePart target = true)
    (hxml : target.map Char.toLower ≠ "xml".toList)
    (hs : ∀ c, s.head? = some c → isSpace c = true) (rest : List Char) :
    afterPrefix? "xml ".toList (target ++ (s ++ ("?>".toList ++ rest))) = none := by
  cases hafter : afterPrefix? "xml ".toList (target ++ (s ++ ("?>".toList ++ rest))) with
  | none => rfl
  | some t =>
    have hsplit := afterPrefix?_eq_some_iff.1 hafter
    have hword : ∀ c ∈ "xml".toList, isNameChar c = true :=
      isNameChar_of_isNamePart (by decide)
    have hspace : ∀ c, (' ' :: t).head? = some c → isNameChar c = false := by
      intro c hc
      obtain rfl := Option.some.inj hc
      decide
    obtain ⟨rfl, -⟩ := run_append_inj isNameChar (isNameChar_of_isNamePart htarget) hword
      (fun c hc => (endsName_instruction hs rest c hc).1) hspace hsplit
    exact absurd rfl hxml

theorem readToken_question (hdeclaration : afterPrefix? "xml ".toList s = none)
    (hread : readInstruction s = some rest) :
    readToken ('<' :: '?' :: s) = some (.remark, rest) := by
  unfold readToken
  simp only [hdeclaration, hread, Option.map_some]

/-- A comment or an instruction is read as one token. -/
theorem RemarkText.readToken (h : RemarkText w) (rest : List Char) :
    readToken (w ++ rest) = some (.remark, rest) := by
  cases h with
  | @comment s hlegal hhyphens hlast =>
    show (readComment (s ++ "-->".toList ++ rest)).map (fun rest => (Token.remark, rest)) = _
    rw [List.append_assoc, readComment_append hlegal hhyphens hlast]
    rfl
  | @instruction target s htarget hxml hlegal hmark hs =>
    have htext : target ++ (s ++ "?>".toList) ++ rest = target ++ (s ++ ("?>".toList ++ rest)) := by
      rw [List.append_assoc, List.append_assoc]
    show Xml.readToken ('<' :: '?' :: (target ++ (s ++ "?>".toList) ++ rest)) = _
    rw [htext]
    exact readToken_question (not_declaration htarget hxml hs rest)
      (readInstruction_append htarget hlegal hmark hs rest)

theorem readToken_bracket (hopen : afterPrefix? "[CDATA[".toList ('[' :: s) = some r)
    (hread : readUntil [']', ']', '>'] r = some (w, rest)) :
    readToken ('<' :: '!' :: '[' :: s) = some (.literal, rest) := by
  have hcomment : ∀ t, '[' :: s = '-' :: '-' :: t → False := fun _ h =>
    absurd (List.cons.inj h).1 (by decide)
  rw [readToken.eq_2 _ hcomment]
  simp only [hopen, hread, Option.map_some]

/-- A literal section is read as one token. -/
theorem readToken_literal (hlegal : Legal w) (hmark : ¬ "]]>".toList <:+: w) (rest : List Char) :
    readToken ("<![CDATA[".toList ++ (w ++ ("]]>".toList ++ rest))) = some (.literal, rest) := by
  have hbody : readUntil [']', ']', '>'] (w ++ ("]]>".toList ++ rest)) = some (w, rest) :=
    have hmark : ¬ [']', ']'] ++ ['>'] <:+: w := hmark
    readUntil_mark (by decide) hmark hlegal rest
  have hopen : afterPrefix? "[CDATA[".toList ("[CDATA[".toList ++ (w ++ ("]]>".toList ++ rest))) =
      some (w ++ ("]]>".toList ++ rest)) := afterPrefix?_eq_some_iff.2 rfl
  exact readToken_bracket hopen hbody

theorem TextRun.isText (h : TextRun w) : isText w = true := by
  obtain ⟨value, hvalue⟩ := h.references
  have hmark : occursIn [']', ']', '>'] w = false :=
    Bool.eq_false_iff.2 fun hin => h.no_mark (occursIn_iff.1 hin)
  unfold Xml.isText
  rw [List.all_eq_true.2 h.legal, hmark, attributeValue?_of_denotes hvalue]
  rfl

theorem TextRun.readToken (h : TextRun w) (hrest : ∀ c, rest.head? = some c → c = '<') :
    readToken (w ++ rest) = some (.text w, rest) :=
  readToken_text h.ne_nil h.no_tag h.isText hrest

/-! ## Declarations -/

section
variable {n e o gap body : List Char}

/-- A field stands behind white space, which is passed over. -/
theorem FieldText.skipGap (h : FieldText n w) (r : List Char) :
    skipGap (w ++ r) = some (skipSpaces (w ++ r)) := by
  obtain @⟨gap, q, raw, hgap, hne, -, -⟩ := h
  obtain ⟨c, g, rfl⟩ := List.exists_cons_of_ne_nil hne
  exact if_pos (hgap c List.mem_cons_self)

theorem FieldText.exists_quoted (h : FieldText n w) (hn : isNamePart n = true) (r : List Char) :
    ∃ q raw, QuotedText q raw ∧ skipSpaces (w ++ r) = n ++ (q ++ r) := by
  obtain @⟨gap, q, raw, hgap, -, hq, -⟩ := h
  obtain ⟨c, t, rfl, hc⟩ := exists_start_of_isNamePart hn
  refine ⟨q, raw, hq, ?_⟩
  rw [List.append_assoc, List.append_assoc, skipSpaces_append hgap]
  intro d hd
  obtain rfl := Option.some.inj hd
  exact not_isSpace_of_isNameStart hc

/-- A field is read up to the end of its value. -/
theorem FieldText.readField (h : FieldText n w) (hn : isNamePart n = true) (r : List Char) :
    readField n (skipSpaces (w ++ r)) = some r := by
  obtain ⟨q, raw, hq, hskip⟩ := h.exists_quoted hn r
  have hfront : afterPrefix? n (n ++ (q ++ r)) = some (q ++ r) := afterPrefix?_eq_some_iff.2 rfl
  unfold Xml.readField
  rw [hskip, hfront]
  simp only [readPair_append (.plain hn) hq, Option.map_some]

/-- The end of a declaration. -/
theorem skipSpaces_end (hgap : Spaces gap) (body : List Char) :
    skipSpaces (gap ++ '?' :: '>' :: body) = '?' :: '>' :: body := by
  refine skipSpaces_append hgap fun c hc => ?_
  obtain rfl := Option.some.inj hc
  rfl

theorem skipGap_end (hgap : Spaces gap) (body : List Char) :
    skipGap (gap ++ '?' :: '>' :: body) = some (skipSpaces (gap ++ '?' :: '>' :: body)) := by
  cases gap with
  | nil => rfl
  | cons c gap => exact if_pos (hgap c List.mem_cons_self)

/-- A field that is there is read, and one that is missing is none. -/
theorem optional_append {behind : List Char → Option (List Char)}
    (he : e = [] ∨ FieldText n e) (hn : isNamePart n = true)
    (hr : afterPrefix? n (skipSpaces r) = none) :
    readDeclaration.optional n (skipSpaces (e ++ r)) behind =
      if e = [] then some (skipSpaces r) else behind r := by
  unfold readDeclaration.optional
  rcases he with rfl | he
  · rw [List.nil_append, hr]
    rfl
  · have hne : e ≠ [] := by
      obtain @⟨gap, q, raw, -, hne, -, -⟩ := he
      exact List.append_ne_nil_of_left_ne_nil hne _
    obtain ⟨q, raw, -, hskip⟩ := he.exists_quoted hn r
    have hfront : afterPrefix? n (skipSpaces (e ++ r)) = some (q ++ r) :=
      afterPrefix?_eq_some_iff.2 hskip
    rw [hfront, if_neg hne]
    show (Xml.readField n (skipSpaces (e ++ r))).bind behind = _
    rw [he.readField hn r]
    rfl

theorem readDeclaration_append {version : List Char} (hv : FieldText "version".toList version)
    (he : e = [] ∨ FieldText "encoding".toList e) (ho : o = [] ∨ FieldText "standalone".toList o)
    (hgap : Spaces gap) (body : List Char) :
    readDeclaration (version ++ (e ++ (o ++ (gap ++ '?' :: '>' :: body)))) = some body := by
  have hend := skipSpaces_end hgap body
  have hnoStandalone : afterPrefix? "standalone".toList (skipSpaces (gap ++ '?' :: '>' :: body)) =
      none := by
    rw [hend]
    rfl
  have hnoEncoding : afterPrefix? "encoding".toList
      (skipSpaces (o ++ (gap ++ '?' :: '>' :: body))) = none := by
    rcases ho with rfl | ho
    · rw [List.nil_append, hend]
      rfl
    · obtain ⟨q, raw, -, hskip⟩ := ho.exists_quoted (by decide) (gap ++ '?' :: '>' :: body)
      rw [hskip]
      rfl
  have hgapStandalone : skipGap (o ++ (gap ++ '?' :: '>' :: body)) =
      some (skipSpaces (o ++ (gap ++ '?' :: '>' :: body))) := by
    rcases ho with rfl | ho
    · exact skipGap_end hgap body
    · exact ho.skipGap _
  have hgapEncoding : skipGap (e ++ (o ++ (gap ++ '?' :: '>' :: body))) =
      some (skipSpaces (e ++ (o ++ (gap ++ '?' :: '>' :: body)))) := by
    rcases he with rfl | he
    · exact hgapStandalone
    · exact he.skipGap _
  unfold readDeclaration
  simp only [bind, Option.bind, hv.skipGap, hv.readField (by decide), hgapEncoding,
    optional_append he (by decide) hnoEncoding, hgapStandalone, ite_self,
    optional_append ho (by decide) hnoStandalone]
  by_cases hnone : o = []
  · rw [if_pos hnone, hend]
    rfl
  · rw [if_neg hnone]
    show afterPrefix? ['?', '>'] (skipSpaces (gap ++ '?' :: '>' :: body)) = some body
    rw [hend]
    rfl

end

/-- Whether an instruction can hold a text without coming to its end. -/
def Quiet (s : List Char) : Prop := ∀ c ∈ s, isLegal c = true ∧ c ≠ '?'

instance (s : List Char) : Decidable (Quiet s) := List.decidableBAll _ _

theorem Quiet.append (hs : Quiet s) (hr : Quiet r) : Quiet (s ++ r) := fun c hc =>
  (List.mem_append.1 hc).elim (hs c) (hr c)

theorem quiet_of_spaces (h : Spaces s) : Quiet s := by
  refine fun c hc => ⟨isLegal_of_isSpace (h c hc), ?_⟩
  rintro rfl
  nomatch h _ hc

theorem FieldText.quiet {n : List Char} (h : FieldText n w) (hn : Quiet n) : Quiet w := by
  obtain @⟨gap, q, raw, hgap, -, hq, hraw⟩ := h
  obtain @⟨before, behind, raw, quote, hbefore, hbehind, hquote, hlegal, -, -⟩ := hq
  have hvalue : Quiet raw := by
    refine fun c hc => ⟨hlegal c hc, ?_⟩
    rintro rfl
    exact absurd (hraw _ hc) (by decide)
  have hmark : Quiet [quote] := by
    rcases hquote with rfl | rfl <;> decide
  have hequals : Quiet ['='] := by decide
  have hquoted : Quiet (before ++ (['='] ++ (behind ++ ([quote] ++ (raw ++ [quote]))))) :=
    (quiet_of_spaces hbefore).append (hequals.append ((quiet_of_spaces hbehind).append
      (hmark.append (hvalue.append hmark))))
  exact (quiet_of_spaces hgap).append (hn.append hquoted)

theorem quiet_of_optional {n : List Char} (h : w = [] ∨ FieldText n w) (hn : Quiet n) : Quiet w := by
  rcases h with rfl | h
  · nofun
  · exact h.quiet hn

theorem FieldText.head? {n : List Char} (h : FieldText n w) :
    ∃ c t, w = c :: t ∧ isSpace c = true := by
  obtain @⟨gap, q, raw, hgap, hne, -, -⟩ := h
  obtain ⟨c, g, rfl⟩ := List.exists_cons_of_ne_nil hne
  exact ⟨c, _, rfl, hgap c List.mem_cons_self⟩

/-- A declaration is read as such if a space as such follows its name, and as an instruction if it is
other white space. -/
theorem DeclarationText.cases {declaration : List Char} (h : DeclarationText declaration)
    (body : List Char) :
    (∃ r, declaration ++ body = "<?xml ".toList ++ r ∧ readDeclaration (' ' :: r) = some body) ∨
      afterPrefix? "<?xml ".toList (declaration ++ body) = none ∧
        readToken (declaration ++ body) = some (.remark, body) := by
  obtain @⟨version, e, o, gap, hv, he, ho, hgap⟩ := h
  obtain ⟨c, t, rfl, hc⟩ := hv.head?
  have htext : "<?xml".toList ++ (c :: t ++ (e ++ (o ++ (gap ++ "?>".toList)))) ++ body =
      "<?xml".toList ++ (c :: t ++ (e ++ (o ++ (gap ++ '?' :: '>' :: body)))) := by
    simp
  rw [htext]
  by_cases hspace : c = ' '
  · subst hspace
    exact .inl ⟨t ++ (e ++ (o ++ (gap ++ '?' :: '>' :: body))), rfl,
      readDeclaration_append hv he ho hgap body⟩
  · right
    have hquiet : Quiet (c :: t ++ (e ++ (o ++ gap))) := by
      have hencoding := quiet_of_optional he (by decide)
      have hstandalone := quiet_of_optional ho (by decide)
      exact (hv.quiet (by decide)).append
        (hencoding.append (hstandalone.append (quiet_of_spaces hgap)))
    have hmark : ¬ "?>".toList <:+: c :: t ++ (e ++ (o ++ gap)) := fun hwithin =>
      (hquiet '?' (hwithin.subset List.mem_cons_self)).2 rfl
    have hhead : ∀ d, (c :: t ++ (e ++ (o ++ gap))).head? = some d → isSpace d = true := by
      intro d hd
      obtain rfl := Option.some.inj hd
      exact hc
    have hnone : afterPrefix? "xml ".toList
        ("xml".toList ++ (c :: t ++ (e ++ (o ++ (gap ++ '?' :: '>' :: body))))) = none := by
      show (if ' ' = c then _ else none) = none
      rw [if_neg (Ne.symm hspace)]
    have htarget : isNamePart "xml".toList = true := by decide
    have hread := readInstruction_append htarget (fun d hd => (hquiet d hd).1) hmark hhead body
    have hinside : "xml".toList ++ (c :: t ++ (e ++ (o ++ gap)) ++ ("?>".toList ++ body)) =
        "xml".toList ++ (c :: t ++ (e ++ (o ++ (gap ++ '?' :: '>' :: body)))) := by
      simp
    rw [hinside] at hread
    refine ⟨hnone, ?_⟩
    exact readToken_question hnone hread

end AndroidFonts.Xml
