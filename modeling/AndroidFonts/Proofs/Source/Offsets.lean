/-
# `AndroidFonts.Proofs.Source.Offsets` — changes to a source text by byte offsets

A text is changed by cutting it at byte offsets, which come from three sides: from the matches of
patterns, from searches for a text, and from counting braces.  Here the changes are carried out on the
bytes (`locate`, `insertInMethod`, `addImport`).  Every cut is checked, and a cut that does not begin and
end between characters, in order, ends the run (`Halt.badSlice`); so does a count of braces that falls
below zero.  A run keeps a record of the offsets that it uses.

`changes_by_offsets` says that no run ends so: each comes to what the change of the text comes to, and all
offsets on the way lie between characters (`Run.Follows`).  There is one lemma for each operation, which
says at which characters its offsets stand.  Cuts and searches are made in parts of the text, which
are known by the characters in front of them (`part`).
-/
import AndroidFonts.Proofs.Source.Delimiters
import AndroidFonts.Proofs.Source.Importing
import AndroidFonts.Proofs.Text.Boundary

namespace AndroidFonts.Offsets

open Text

/-! ## Runs -/

/-- Why a run ends without a result. -/
inductive Halt where
  | refused (cause : PatchError)
  /-- A part was to be cut out that does not begin and end between characters, in order. -/
  | badSlice (first last : Nat)
  /-- Braces were counted below zero. -/
  | underflow (cause : Underflow)
deriving Repr, DecidableEq

/-- What a computation comes to, and the offsets into the text that it uses. -/
structure Run (α : Type) where
  result : Except Halt α
  used : List Nat

instance : Monad Run where
  pure a := ⟨.ok a, []⟩
  bind x f :=
    match x.result with
    | .ok a => ⟨(f a).result, x.used ++ (f a).used⟩
    | .error halt => ⟨.error halt, x.used⟩

namespace Run

variable {α β : Type} {a : α} {x : Run α} {f : α → Run β} {r : Except PatchError β} {text : String}

def refuse (cause : PatchError) : Run α := ⟨.error (.refused cause), []⟩

def ofPatch : Except PatchError α → Run α
  | .ok a => return a
  | .error cause => refuse cause

/-- An offset that nothing is cut at. -/
def mark (n : Nat) : Run Unit := ⟨.ok (), [n]⟩

/-- Whether a run comes to a given outcome, by offsets between the characters of a text. -/
structure Follows (text : String) (x : Run α) (r : Except PatchError α) : Prop where
  result_eq : x.result = r.mapError .refused
  isBoundary : ∀ n ∈ x.used, IsBoundary (bytesOf text) n

theorem bind_eq (x : Run α) (f : α → Run β) : x >>= f =
    match x.result with
    | .ok a => ⟨(f a).result, x.used ++ (f a).used⟩
    | .error halt => ⟨.error halt, x.used⟩ := rfl

theorem follows_pure (a : α) : Follows text (pure a) (.ok a) :=
  ⟨rfl, nofun⟩

theorem follows_refuse (cause : PatchError) : Follows text (refuse cause : Run α) (.error cause) :=
  ⟨rfl, nofun⟩

theorem follows_mark {n : Nat} (h : IsBoundary (bytesOf text) n) : Follows text (mark n) (.ok ()) := by
  refine ⟨rfl, ?_⟩
  intro m hm
  obtain rfl := List.mem_singleton.1 hm
  exact h

theorem Follows.andThen (hx : Follows text x (.ok a)) (hf : Follows text (f a) r) :
    Follows text (x >>= f) r := by
  have hbind : x >>= f = ⟨(f a).result, x.used ++ (f a).used⟩ := by
    rw [bind_eq, hx.result_eq]
    rfl
  rw [hbind]
  refine ⟨hf.result_eq, ?_⟩
  intro n hn
  rcases List.mem_append.1 hn with hn | hn
  · exact hx.isBoundary n hn
  · exact hf.isBoundary n hn

theorem Follows.stop {cause : PatchError} (hx : Follows text x (.error cause)) :
    Follows text (x >>= f) (.error cause) := by
  have hbind : x >>= f = ⟨.error (.refused cause), x.used⟩ := by
    rw [bind_eq, hx.result_eq]
    rfl
  rw [hbind]
  exact ⟨rfl, hx.isBoundary⟩

/-- What a run that follows an outcome ends with is that outcome. -/
theorem Follows.eq_ok {r : Except PatchError α} (hx : Follows text x r) (h : x.result = .ok a) :
    r = .ok a := by
  rw [hx.result_eq] at h
  cases r with
  | error cause => nomatch h
  | ok a' => exact congrArg _ (Except.ok.inj h)

end Run

open Run

/-! ## Parts of a text -/

/-- A part of a text: the offset at which it begins, and its bytes. -/
structure Part where
  base : Nat
  bytes : List UInt8
deriving Repr, DecidableEq

/-- The part that is the whole text. -/
def whole (text : String) : Part := ⟨0, bytesOf text⟩

namespace Part

/-- Cuts out what stands between two offsets, which have to be in order and between characters. -/
def slice (p : Part) (first last : Nat) : Run Part where
  result :=
    if first ≤ last ∧ IsBoundary p.bytes first ∧ IsBoundary p.bytes last then
      .ok ⟨p.base + first, (p.bytes.take last).drop first⟩
    else .error (.badSlice first last)
  used := [p.base + first, p.base + last]

def sliceTo (p : Part) (last : Nat) : Run Part := p.slice 0 last

def sliceFrom (p : Part) (first : Nat) : Run Part := p.slice first p.bytes.length

/-- The offset in the part at which some text first stands. -/
def find (p : Part) (needle : List Char) : Run (Option Nat) where
  result := .ok (offsetOf? (Text.bytes needle) p.bytes)
  used := (offsetOf? (Text.bytes needle) p.bytes).toList.map (p.base + ·)

def contains (p : Part) (needle : List Char) : Bool :=
  (offsetOf? (Text.bytes needle) p.bytes).isSome

end Part

/-- The part that holds some characters, behind others. -/
def part (front s : List Char) : Part := ⟨byteLength front, bytes s⟩

variable {text className methodName : String} {d : Dialect} {b : Body} {place : Nat}
  {front s x y z back p q : List Char}

theorem whole_eq (text : String) : whole text = part [] text.toList := by
  rw [whole, bytesOf_eq]
  rfl

theorem isBoundary_of_eq_append (h : text.toList = p ++ q) :
    IsBoundary (bytesOf text) (byteLength p) := by
  rw [bytesOf_eq]
  exact isBoundary_bytes_iff.2 ⟨p, q, h, rfl⟩

theorem slice_follows (htext : text.toList = front ++ s ++ back) (hs : s = x ++ y ++ z) :
    Follows text ((part front s).slice (byteLength x) (byteLength (x ++ y)))
      (.ok (part (front ++ x) y)) := by
  subst hs
  constructor
  · have hfirst : IsBoundary (bytes (x ++ y ++ z)) (byteLength x) :=
      isBoundary_bytes_iff.2 ⟨x, y ++ z, List.append_assoc .., rfl⟩
    have hlast : IsBoundary (bytes (x ++ y ++ z)) (byteLength (x ++ y)) :=
      isBoundary_bytes_iff.2 ⟨x ++ y, z, rfl, rfl⟩
    have hle : byteLength x ≤ byteLength (x ++ y) := by
      rw [byteLength_append]
      exact Nat.le_add_right ..
    have hpart : (⟨byteLength front + byteLength x,
        ((bytes (x ++ y ++ z)).take (byteLength (x ++ y))).drop (byteLength x)⟩ : Part) =
          part (front ++ x) y := by
      rw [bytes_append (x ++ y), List.take_left' (length_bytes _), bytes_append,
        List.drop_left' (length_bytes _), part, byteLength_append]
    exact (if_pos ⟨hle, hfirst, hlast⟩).trans (congrArg Except.ok hpart)
  · intro n hn
    have hn : n = byteLength (front ++ x) ∨ n = byteLength (front ++ (x ++ y)) := by
      rw [byteLength_append, byteLength_append front]
      simpa [Part.slice, part] using hn
    rcases hn with rfl | rfl
    · exact isBoundary_of_eq_append (q := y ++ z ++ back) (by simp [htext])
    · exact isBoundary_of_eq_append (q := z ++ back) (by simp [htext])

theorem sliceFrom_follows (htext : text.toList = front ++ s ++ back) (hs : s = x ++ y) :
    Follows text ((part front s).sliceFrom (byteLength x)) (.ok (part (front ++ x) y)) := by
  have h := slice_follows (z := []) htext (hs.trans (List.append_nil _).symm)
  rw [← hs] at h
  rw [Part.sliceFrom, part, length_bytes]
  exact h

theorem whole_slice_follows (htext : text.toList = x ++ y ++ z) :
    Follows text ((whole text).slice (byteLength x) (byteLength (x ++ y))) (.ok (part x y)) := by
  rw [whole_eq]
  have hwhole : text.toList = [] ++ text.toList ++ [] := (List.append_nil _).symm
  exact slice_follows hwhole htext

theorem whole_sliceTo_follows (htext : text.toList = x ++ y) :
    Follows text ((whole text).sliceTo (byteLength x)) (.ok (part [] x)) :=
  whole_slice_follows (x := []) htext

theorem whole_sliceFrom_follows (htext : text.toList = x ++ y) :
    Follows text ((whole text).sliceFrom (byteLength x)) (.ok (part x y)) := by
  rw [whole_eq]
  have hwhole : text.toList = [] ++ text.toList ++ [] := (List.append_nil _).symm
  exact sliceFrom_follows hwhole htext

theorem find_follows (htext : text.toList = front ++ s ++ back) (needle : List Char) :
    Follows text ((part front s).find needle)
      (.ok ((cut? needle s).map fun (p, _) => byteLength p)) := by
  refine ⟨congrArg Except.ok (offsetOf?_bytes needle s), ?_⟩
  intro n hn
  obtain ⟨k, hk, rfl⟩ := List.mem_map.1 hn
  have hfound : offsetOf? (bytes needle) (bytes s) = some k := Option.mem_toList.1 hk
  rw [offsetOf?_bytes] at hfound
  obtain ⟨⟨p, q⟩, hcut, rfl⟩ := Option.map_eq_some_iff.1 hfound
  have hs := eq_append_of_cut? hcut
  have hboundary : IsBoundary (bytesOf text) (byteLength (front ++ p)) :=
    isBoundary_of_eq_append (q := needle ++ q ++ back) (by simp [htext, hs])
  rw [byteLength_append] at hboundary
  exact hboundary

theorem contains_part (front s needle : List Char) :
    (part front s).contains needle = occursIn needle s := by
  show (offsetOf? (bytes needle) (bytes s)).isSome = _
  rw [offsetOf?_bytes, Option.isSome_map]
  rfl

/-! ## Text that is written -/

/-- The bytes of a text that was changed. -/
def written : TextPatch → Option (List UInt8)
  | .applied patched => some (bytesOf patched)
  | .alreadyApplied => none

/-- Writes some characters at an offset. -/
def splice (text : String) (place : Nat) (added : List Char) : Run (Option (List UInt8)) := do
  let front ← (whole text).sliceTo place
  let back ← (whole text).sliceFrom place
  return some (front.bytes ++ bytes added ++ back.bytes)

theorem splice_follows {added : List Char} {patched : String} (htext : text.toList = x ++ y)
    (hpatched : patched.toList = x ++ added ++ y) :
    Follows text (splice text (byteLength x) added) (.ok (written (.applied patched))) := by
  have hbytes : bytesOf patched = bytes x ++ bytes added ++ bytes y := by
    rw [bytesOf_eq, hpatched, bytes_append, bytes_append]
  refine (whole_sliceTo_follows htext).andThen ?_
  refine (whole_sliceFrom_follows htext).andThen ?_
  rw [written, hbytes]
  exact follows_pure _

/-! ## Bodies -/

/-- The offset of the brace that closes the one at an offset, by counting over the bytes. -/
def closing (text : String) (opening : Nat) : Run (Option Nat) :=
  if (bytesOf text)[opening]? = some leftBrace then
    match closeFrom 1 (opening + 1) ((bytesOf text).drop (opening + 1)) with
    | .ok found => ⟨.ok found, opening :: (opening + 1) :: found.toList⟩
    | .error cause => ⟨.error (.underflow cause), [opening, opening + 1]⟩
  else return none

/-- The first brace from an offset on, and the one that closes it. -/
def bodyFrom (text : String) (start : Nat) : Run (Option Span) := do
  let rest ← (whole text).sliceFrom start
  let some behind ← rest.find ['{'] | return none
  let close ← closing text (start + behind)
  return close.map (Span.mk (start + behind))

/-- The braces around the body of the first method of this name declared after the first class of that
name. -/
def locate (text className methodName : String) (d : Dialect) : Run Span := do
  let classPattern ← ofPatch (Body.anchorPattern d (.classHead className))
  let some classHead := classPattern.find? text.toList
    | refuse (.classNotFound className)
  mark classHead.start
  let methodPattern ← ofPatch (Body.anchorPattern d (.methodHead methodName))
  let some methodHead := (methodPattern.findAll text.toList).find? fun m =>
      classHead.start < m.start
    | refuse (.methodNotFound className methodName)
  let some span ← bodyFrom text methodHead.start
    | refuse (.bodyNotFound className methodName)
  return span

theorem closing_follows (text : String) (opening : Nat) :
    Follows text (closing text opening) (.ok (matchDelimiter text opening)) := by
  unfold closing
  split
  · rename_i hopens
    rw [closeFrom_matchDelimiter hopens]
    refine ⟨rfl, ?_⟩
    intro n hn
    rw [bytesOf_eq] at hopens
    obtain ⟨front, rest, htext, rfl⟩ := (getElem?_bytes_eq_some_iff (by decide)).1 hopens
    -- the brace, the place behind it, and the brace that closes it
    rcases List.mem_cons.1 hn with rfl | hn
    · exact isBoundary_of_eq_append htext
    rcases List.mem_cons.1 hn with rfl | hn
    · have hopening := isBoundary_of_eq_append (htext.trans (List.append_cons ..))
      rw [byteLength_append] at hopening
      exact hopening
    · obtain ⟨front', inner, rest', htext', hfront, -, rfl⟩ :=
        matchDelimiter_eq_some_iff.1 (Option.mem_toList.1 hn)
      have hclosing : IsBoundary (bytesOf text) (byteLength (front' ++ '{' :: inner)) :=
        isBoundary_of_eq_append (q := '}' :: rest') (by simp [htext'])
      rw [byteLength_append, byteLength_cons, ← hfront, ← Nat.add_assoc] at hclosing
      exact hclosing
  · rename_i hopens
    have hnone : matchDelimiter text opening = none := by
      refine Option.eq_none_iff_forall_ne_some.2 ?_
      intro close hclose
      exact hopens (matchDelimiter_eq_some_iff_matched.1 hclose).opens
    rw [hnone]
    exact follows_pure none

/-- The body that begins at the first brace from some place on is between that brace and the one that
closes it. -/
theorem map_span_firstIn? (htext : text.toList = front ++ s) (hcut : cut? ['{'] s = some (p, q)) :
    (Body.firstIn? front s).map Body.span =
      (matchDelimiter text (byteLength front + byteLength p)).map
        (Span.mk (byteLength front + byteLength p)) := by
  have hs : text.toList = front ++ p ++ '{' :: q := by
    rw [htext, eq_append_of_cut? hcut]
    simp
  unfold matchDelimiter Body.firstIn?
  rw [← byteLength_append, hs, splitAtByte?_byteLength, hcut]
  simp only [bind, Option.bind]
  cases splitAtClose? 0 q with
  | none => rfl
  | some parts =>
    obtain ⟨inside, after⟩ := parts
    have hbrace : byteLength ['{'] = 1 := rfl
    refine congrArg some ?_
    rw [Body.span, byteLength_append _ ['{'], hbrace, Nat.add_sub_cancel]

theorem bodyFrom_follows (htext : text.toList = front ++ s) :
    Follows text (bodyFrom text (byteLength front))
      (.ok ((Body.firstIn? front s).map Body.span)) := by
  refine (whole_sliceFrom_follows htext).andThen ?_
  have hrest : text.toList = front ++ s ++ [] := by rw [htext, List.append_nil]
  refine (find_follows hrest ['{']).andThen ?_
  cases hcut : cut? ['{'] s with
  | none =>
    have hnone : Body.firstIn? front s = none := by
      unfold Body.firstIn?
      rw [hcut]
      rfl
    rw [hnone]
    exact follows_pure none
  | some parts =>
    obtain ⟨p, q⟩ := parts
    rw [map_span_firstIn? htext hcut]
    refine (closing_follows text (byteLength front + byteLength p)).andThen ?_
    exact follows_pure _

theorem locate_follows (text className methodName : String) (d : Dialect) :
    Follows text (locate text className methodName d)
      ((Body.locate text className methodName d).map Body.span) := by
  rw [Body.locate_eq, Anchor.first?_eq, Anchor.all_eq]
  unfold locate
  rw [Body.anchorPattern_eq, Body.anchorPattern_eq]
  refine (follows_pure _).andThen ?_
  cases hclass : (Pattern.chain ((Anchor.classHead className).parts d)).find? text.toList with
  | none => exact follows_refuse _
  | some ch =>
    have htext := Pattern.text_of_find? hclass
    rw [Match.text, List.append_assoc] at htext
    refine (follows_mark (isBoundary_of_eq_append htext.symm)).andThen ?_
    refine (follows_pure _).andThen ?_
    dsimp only
    cases hmethod : ((Pattern.chain ((Anchor.methodHead methodName).parts d)).findAll
        text.toList).find? fun m => ch.start < m.start with
    | none => exact follows_refuse _
    | some mh =>
      have htext := Pattern.text_of_mem_findFrom (List.mem_of_find?_eq_some hmethod)
      rw [Match.text, List.append_assoc] at htext
      refine (bodyFrom_follows htext.symm).andThen ?_
      dsimp only
      cases Body.firstIn? mh.before (mh.matched ++ mh.after) with
      | none => exact follows_refuse _
      | some b => exact follows_pure b.span

/-! ## Statements -/

/-- The line break of a body: CR LF if it holds one, else LF. -/
def newline (body : Part) : List Char :=
  if body.contains ['\r', '\n'] then ['\r', '\n'] else ['\n']

/-- The offset at which a statement goes: the end of the line on which the anchor first stands, or the
closing brace. -/
def insertionPoint (span : Span) (body : Part) : Option (List Char) → Run Nat
  | none => return span.closing
  | some anchor => do
    let some found ← body.find anchor
      | refuse (.anchorLineNotFound (String.ofList anchor))
    let anchorEnd := found + byteLength anchor
    let rest ← body.sliceFrom anchorEnd
    let lineEnd ← rest.find (newline body)
    return span.opening + 1 + (lineEnd.map (anchorEnd + ·)).getD body.bytes.length

/-- Writes a statement into the body between two braces, unless it is there; what is left then is the
text as it is. -/
def insert (text : String) (span : Span) (snippet : String) (afterLine : Option String) :
    Run (Option (List UInt8)) := do
  let body ← (whole text).slice (span.opening + 1) span.closing
  if body.contains (Unicode.trim snippet.toList) then return none
  else
    let place ← insertionPoint span body (Body.anchorOf afterLine)
    splice text place (newline body ++ Body.indent ++ snippet.toList)

/-- Writes a statement into a method body. -/
def insertInMethod (text className methodName snippet : String) (afterLine : Option String)
    (d : Dialect) : Run (Option (List UInt8)) := do
  insert text (← locate text className methodName d) snippet afterLine

theorem newline_part (b : Body) : newline (part b.before b.inside) = b.newline := by
  rw [newline, contains_part]
  rfl

theorem opening_succ (h : Body.locate text className methodName d = .ok b) :
    b.span.opening + 1 = byteLength b.before := by
  obtain ⟨front, hbefore⟩ := Body.before_of_locate h
  have hbrace : byteLength ['{'] = 1 := rfl
  rw [Body.span, hbefore, byteLength_append, hbrace]
  rfl

theorem closing_eq (b : Body) : b.span.closing = byteLength (b.before ++ b.inside) :=
  (byteLength_append ..).symm

theorem body_slice_follows (h : Body.locate text className methodName d = .ok b) :
    Follows text ((whole text).slice (b.span.opening + 1) b.span.closing)
      (.ok (part b.before b.inside)) := by
  rw [opening_succ h, closing_eq]
  exact whole_slice_follows (Body.text_eq_of_locate h).1

theorem insertionPoint_follows (h : Body.locate text className methodName d = .ok b)
    (anchor : Option (List Char)) :
    Follows text (insertionPoint b.span (part b.before b.inside) anchor)
      ((b.insertionPoint anchor).map fun (head, _) => byteLength (b.before ++ head)) := by
  have htext := (Body.text_eq_of_locate h).1
  cases anchor with
  | none =>
    rw [insertionPoint, closing_eq]
    exact follows_pure _
  | some anchor =>
    unfold insertionPoint
    rw [newline_part]
    refine (find_follows htext anchor).andThen ?_
    cases hcut : cut? anchor b.inside with
    | none =>
      have hpoint : b.insertionPoint (some anchor) =
          .error (.anchorLineNotFound (String.ofList anchor)) := by
        simp only [Body.insertionPoint, hcut]
      rw [hpoint]
      exact follows_refuse _
    | some around =>
      obtain ⟨p, q⟩ := around
      have hinside := eq_append_of_cut? hcut
      have hrest := sliceFrom_follows htext hinside
      rw [byteLength_append] at hrest
      refine hrest.andThen ?_
      have hbehind : text.toList = b.before ++ (p ++ anchor) ++ q ++ b.after := by
        simp [htext, hinside]
      refine (find_follows hbehind b.newline).andThen ?_
      -- the line ends at a line break or with the body
      cases hline : cut? b.newline q with
      | none =>
        have hpoint : b.insertionPoint (some anchor) = .ok (p ++ anchor ++ q, []) := by
          simp only [Body.insertionPoint, hcut, hline]
        have hplace : b.span.opening + 1 + (part b.before b.inside).bytes.length =
            byteLength (b.before ++ (p ++ anchor ++ q)) := by
          rw [opening_succ h, part, length_bytes, hinside, byteLength_append b.before]
        rw [hpoint]
        exact hplace ▸ follows_pure _
      | some around =>
        obtain ⟨line, rest⟩ := around
        have hpoint : b.insertionPoint (some anchor) =
            .ok (p ++ anchor ++ line, b.newline ++ rest) := by
          simp only [Body.insertionPoint, hcut, hline]
        have hplace : b.span.opening + 1 + (byteLength p + byteLength anchor + byteLength line) =
            byteLength (b.before ++ (p ++ anchor ++ line)) := by
          rw [opening_succ h]
          simp only [byteLength_append]
        rw [hpoint]
        exact hplace ▸ follows_pure _

theorem insert_follows (h : Body.locate text className methodName d = .ok b) (snippet : String)
    (afterLine : Option String) :
    Follows text (insert text b.span snippet afterLine) ((b.insert snippet afterLine).map written) := by
  unfold insert Body.insert
  refine (body_slice_follows h).andThen ?_
  rw [contains_part]
  split
  · exact follows_pure none
  · have hpoint := insertionPoint_follows h (Body.anchorOf afterLine)
    cases hparts : b.insertionPoint (Body.anchorOf afterLine) with
    | error cause =>
      rw [hparts] at hpoint
      exact hpoint.stop
    | ok parts =>
      obtain ⟨head, tail⟩ := parts
      rw [hparts] at hpoint
      have htext : text.toList = (b.before ++ head) ++ (tail ++ b.after) := by
        rw [(Body.text_eq_of_locate h).1, (Body.insertionPoint_eq_ok hparts).1]
        simp
      refine hpoint.andThen ?_
      rw [newline_part]
      refine splice_follows htext ?_
      rw [String.toList_ofList]
      simp only [List.append_assoc]

theorem insertInMethod_follows (text className methodName snippet : String)
    (afterLine : Option String) (d : Dialect) :
    Follows text (insertInMethod text className methodName snippet afterLine d)
      ((AndroidFonts.insertInMethod text className methodName snippet afterLine d).map written) := by
  have hlocate := locate_follows text className methodName d
  unfold insertInMethod AndroidFonts.insertInMethod
  cases hbody : Body.locate text className methodName d with
  | error cause =>
    rw [hbody] at hlocate
    exact hlocate.stop
  | ok b =>
    rw [hbody] at hlocate
    exact hlocate.andThen (insert_follows hbody snippet afterLine)

/-- A statement goes behind the opening brace, and not behind the closing one. -/
theorem place_in_body (h : Body.locate text className methodName d = .ok b)
    {anchor : Option (List Char)}
    (hplace : (insertionPoint b.span (part b.before b.inside) anchor).result = .ok place) :
    IsBoundary (bytesOf text) place ∧ b.span.opening < place ∧ place ≤ b.span.closing := by
  have hpoint := (insertionPoint_follows h anchor).eq_ok hplace
  cases hparts : b.insertionPoint anchor with
  | error cause =>
    rw [hparts] at hpoint
    nomatch hpoint
  | ok parts =>
    obtain ⟨head, tail⟩ := parts
    rw [hparts] at hpoint
    obtain rfl : byteLength (b.before ++ head) = place := Except.ok.inj hpoint
    have hinside := (Body.insertionPoint_eq_ok hparts).1
    refine ⟨isBoundary_of_eq_append (q := tail ++ b.after) ?_, ?_, ?_⟩
    · rw [(Body.text_eq_of_locate h).1, hinside]
      simp
    · have := opening_succ h
      rw [byteLength_append]
      omega
    · rw [closing_eq, hinside]
      simp only [byteLength_append]
      omega

/-! ## Imports -/

/-- Writes an import two lines below the end of the package declaration. -/
def addImport (text path : String) (d : Dialect) : Run (Option (List UInt8)) := do
  let importPattern ← ofPatch (Body.anchorPattern d (.importOf path))
  if importPattern.occursIn text.toList then return none
  else
    let packagePattern ← ofPatch (Body.anchorPattern d .package)
    let some package := packagePattern.find? text.toList
      | refuse (.importAnchorMissing path)
    splice text package.stop (['\n', '\n'] ++ (d.importStatement path).toList)

theorem addImport_follows (text path : String) (d : Dialect) :
    Follows text (addImport text path d) ((AndroidFonts.addImport text path d).map written) := by
  have himport : Body.anchorPattern d (.importOf path) =
      .ok (Pattern.chain (d.importParts.fill path.toList)) := Body.anchorPattern_eq d _
  have hpackage : Body.anchorPattern d .package = .ok (Pattern.chain d.packageParts) :=
    Body.anchorPattern_eq d _
  rw [Dialect.addImport_eq]
  unfold addImport
  rw [himport, hpackage]
  refine (follows_pure _).andThen ?_
  split
  · exact follows_pure none
  · refine (follows_pure _).andThen ?_
    cases hfound : (Pattern.chain d.packageParts).find? text.toList with
    | none => exact follows_refuse _
    | some m =>
      have htext := Pattern.text_of_find? hfound
      rw [Match.text] at htext
      have hstop : m.stop = byteLength (m.before ++ m.matched) := (byteLength_append ..).symm
      dsimp only
      rw [hstop]
      refine splice_follows htext.symm ?_
      rw [String.toList_ofList]
      simp only [List.append_assoc]

/-! ## All changes -/

theorem span_on_boundaries (h : Body.locate text className methodName d = .ok b) :
    ∀ n ∈ [b.span.opening, b.span.opening + 1, b.span.closing], IsBoundary (bytesOf text) n := by
  have htext := (Body.text_eq_of_locate h).1
  obtain ⟨front, hbefore⟩ := Body.before_of_locate h
  have hopening : b.span.opening = byteLength front := by
    have hsucc := opening_succ h
    rw [hbefore, byteLength_append] at hsucc
    exact Nat.succ.inj hsucc
  intro n hn
  simp only [List.mem_cons, List.not_mem_nil, or_false] at hn
  rcases hn with rfl | rfl | rfl
  · rw [hopening]
    exact isBoundary_of_eq_append (q := '{' :: (b.inside ++ b.after)) (by simp [htext, hbefore])
  · rw [opening_succ h]
    exact isBoundary_of_eq_append (htext.trans (List.append_assoc ..))
  · rw [closing_eq]
    exact isBoundary_of_eq_append htext

/-- Each change, carried out by offsets, comes to what the change of the text comes to: every part that is
cut out begins and ends between characters, and so do all offsets that are used.  The braces around a
body stand between characters, the body can be cut out, and a statement goes behind the opening brace
and not behind the closing one. -/
theorem changes_by_offsets (text className methodName snippet path : String)
    (afterLine : Option String) (d : Dialect) :
    Follows text (locate text className methodName d)
      ((Body.locate text className methodName d).map Body.span) ∧
    Follows text (insertInMethod text className methodName snippet afterLine d)
      ((AndroidFonts.insertInMethod text className methodName snippet afterLine d).map written) ∧
    Follows text (addImport text path d) ((AndroidFonts.addImport text path d).map written) ∧
    ∀ span, (locate text className methodName d).result = .ok span →
      (∀ n ∈ [span.opening, span.opening + 1, span.closing], IsBoundary (bytesOf text) n) ∧
      ∃ body, ((whole text).slice (span.opening + 1) span.closing).result = .ok body ∧
        ∀ place, (insertionPoint span body (Body.anchorOf afterLine)).result = .ok place →
          IsBoundary (bytesOf text) place ∧ span.opening < place ∧ place ≤ span.closing := by
  have hlocate := locate_follows text className methodName d
  refine ⟨hlocate, insertInMethod_follows .., addImport_follows .., ?_⟩
  intro span hspan
  have hbody := hlocate.eq_ok hspan
  cases h : Body.locate text className methodName d with
  | error cause =>
    rw [h] at hbody
    nomatch hbody
  | ok b =>
    rw [h] at hbody
    obtain rfl : b.span = span := Except.ok.inj hbody
    refine ⟨span_on_boundaries h, part b.before b.inside, (body_slice_follows h).result_eq, ?_⟩
    intro place hplace
    exact place_in_body h hplace

/-- A class and a body with letters of two bytes, in front of the body and in it. -/
def foreignLetters : String :=
  "package a;\n// é\nclass Ä\x7b\r\n  public void f()\x7b\r\n// ж\r\n\x7d\x7d"

theorem changes_by_offsets_of_letters :
    (locate foreignLetters "Ä" "f" .java).result = .ok ⟨45, 55⟩ ∧
    (insertInMethod foreignLetters "Ä" "f" "€();" (some "ж") .java).result = .ok (some (bytesOf
      "package a;\n// é\nclass Ä\x7b\r\n  public void f()\x7b\r\n// ж\r\n    €();\r\n\x7d\x7d")) ∧
    (addImport foreignLetters "ö.P" .java).result = .ok (some (bytesOf
      "package a;\n\nimport ö.P;\n// é\nclass Ä\x7b\r\n  public void f()\x7b\r\n// ж\r\n\x7d\x7d")) ∧
    ∃ body, ((whole foreignLetters).slice 46 55).result = .ok body ∧
      (insertionPoint ⟨45, 55⟩ body (Body.anchorOf (some "ж"))).result = .ok 53 ∧
      IsBoundary (bytesOf foreignLetters) 53 ∧ ¬ IsBoundary (bytesOf foreignLetters) 52 := by
  obtain ⟨hlocate, hinsert, himport, hspan⟩ :=
    changes_by_offsets foreignLetters "Ä" "f" "€();" "ö.P" (some "ж") .java
  have hbraces : (locate foreignLetters "Ä" "f" .java).result = .ok ⟨45, 55⟩ := by
    rw [hlocate.result_eq]
    decide +kernel
  obtain ⟨-, body, hbody, hplace⟩ := hspan ⟨45, 55⟩ hbraces
  obtain rfl : ⟨46, bytesOf "\r\n// ж\r\n"⟩ = body :=
    Except.ok.inj (Eq.trans (by decide +kernel) hbody)
  have hpoint : (insertionPoint ⟨45, 55⟩ ⟨46, bytesOf "\r\n// ж\r\n"⟩
      (Body.anchorOf (some "ж"))).result = .ok 53 := by decide +kernel
  refine ⟨hbraces, ?_, ?_, _, hbody, hpoint, (hplace 53 hpoint).1, by decide +kernel⟩
  · rw [hinsert.result_eq]
    decide +kernel
  · rw [himport.result_eq]
    decide +kernel

end AndroidFonts.Offsets
