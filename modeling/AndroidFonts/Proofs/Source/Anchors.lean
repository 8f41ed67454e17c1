/-
# `AndroidFonts.Proofs.Source.Anchors` — the patterns that declarations are found by

A template is read into the parts in front of the name and those behind it, and a name that is filled
in stands between them, character by character, whatever it is: every anchor has a pattern, and it is
the row that `Anchor.row` writes out (`pattern?_eq`).  So no name is refused, and none can change the
shape of a declaration.

What the reader does with the text in front of a name does not depend on the name, with one exception:
a template breaks off behind a `+`, and a question mark there would turn its preference round.  An
escaped name never begins with one (`head?_escape_append`).
-/
import AndroidFonts.Proofs.Pattern.Taking
import AndroidFonts.Source.Body

namespace AndroidFonts

open Pattern

/-! ## Templates as parts -/

/-- The parts of a pattern around the place where a name goes. -/
structure TemplateParts where
  front : List Pattern
  back : List Pattern

namespace TemplateParts

/-- The parts with a name between them. -/
def fill (t : TemplateParts) (name : List Char) : List Pattern :=
  t.front ++ spelled name ++ t.back

end TemplateParts

namespace Pattern

/-- White space, at least one character of it. -/
def gap : Pattern := many1 .blank

/-- A run of characters that are no white space. -/
def solid : Pattern := many1 (.complement .blank)

/-- One of the words for who may call a method. -/
def access : Pattern :=
  .alt (chain (spelled "public".toList))
    (.alt (chain (spelled "protected".toList)) (chain (spelled "private".toList)))

/-- A word of a class head with the name that follows it. -/
def clause (word : List Char) : Pattern := chain (gap :: spelled word ++ [gap, solid])

end Pattern

namespace Dialect

/-- The head of a class declaration. -/
def classParts : Dialect → TemplateParts
  | .java => ⟨spelled "class".toList ++ [gap],
      [.opt (clause "extends".toList), .opt (clause "implements".toList), .many .blank] ++
        spelled ['{']⟩
  | .kotlin => ⟨spelled "class".toList ++ [gap],
      .many .blank :: spelled [':'] ++ [.many .blank, solid] ++ spelled ['(', ')'] ++
        [.many .blank, .opt (.one (.single ',')), .many .blank, .opt (chain [solid, .many .blank])] ++
        spelled ['{']⟩

/-- The head of a method declaration. -/
def methodParts : Dialect → TemplateParts
  | .java => ⟨[access, gap, .opt (chain (spelled "static".toList ++ [gap])), solid, gap],
      .many .blank :: spelled ['(']⟩
  | .kotlin => ⟨spelled "override".toList ++ gap :: spelled "fun".toList ++ [gap],
      .many .blank :: spelled ['(', ')']⟩

/-- An import. -/
def importParts : Dialect → TemplateParts
  | .java => ⟨spelled "import".toList ++ [gap], spelled [';']⟩
  | .kotlin => ⟨.empty :: spelled "import".toList ++ [gap], [.many .blank, .lineEnd]⟩

/-- The package declaration. -/
def packageParts (d : Dialect) : List Pattern :=
  spelled "package".toList ++ gap :: many1 (.union .word (.single '.')) :: spelled d.terminator.toList

end Dialect

namespace Anchor

/-- The parts of the pattern that finds a declaration. -/
def parts (d : Dialect) : Anchor → List Pattern
  | .classHead name => d.classParts.fill name.toList
  | .methodHead name => d.methodParts.fill name.toList
  | .importOf path => d.importParts.fill path.toList
  | .package => d.packageParts

end Anchor

/-! ## Rows as they are written -/

namespace Notation

variable {items more : List Notation} {ps qs : List Pattern}

theorem sequence?_append (h : sequence? items = some (chain ps)) (hmore : sequence? more = some (chain qs)) :
    sequence? (items ++ more) = some (chain (ps ++ qs)) := by
  induction items generalizing ps with
  | nil =>
    cases ps with
    | nil => exact hmore
    | cons p ps => nomatch h
  | cons item items ih =>
    obtain ⟨p, hp, h⟩ := Option.bind_eq_some_iff.1 h
    obtain ⟨rest, hrest, h⟩ := Option.bind_eq_some_iff.1 h
    cases ps with
    | nil => nomatch h
    | cons p' ps =>
      obtain ⟨rfl, rfl⟩ := Pattern.seq.inj (Option.some.inj h)
      show (item.pattern?.bind fun p => (sequence? (items ++ more)).bind fun q =>
      some (Pattern.seq p q)) = _
      rw [hp, ih hrest]
      rfl

/-- The characters of a name as they are read. -/
def charItems (name : List Char) : List Notation := name.map fun c => .chars false (plainItem c)

theorem sequence?_charItems (name : List Char) :
    sequence? (charItems name) = some (chain (spelled name)) := by
  induction name with
  | nil => rfl
  | cons c name ih =>
    show (sequence? (charItems name)).bind (fun q =>
      some (Pattern.seq (.one (.single c)) q)) = _
    rw [ih]
    rfl

theorem depthOfAll_append (items more : List Notation) :
    depthOfAll (items ++ more) = max (depthOfAll items) (depthOfAll more) := by
  induction items with
  | nil => exact (Nat.zero_max _).symm
  | cons item items ih =>
    show max item.depth (depthOfAll (items ++ more)) = max (max item.depth (depthOfAll items)) _
    rw [ih, Nat.max_assoc]

theorem depthOfAll_charItems (name : List Char) : depthOfAll (charItems name) = 0 := by
  induction name with
  | nil => rfl
  | cons c name ih =>
    show max (depth (.chars false (plainItem c))) (depthOfAll (charItems name)) = 0
    rw [ih]
    rfl

theorem ofItems_of_two_le (h : 2 ≤ items.length) : ofItems items = .row items := by
  match items, h with
  | _ :: _ :: _, _ => rfl

end Notation

/-! ## Reading around a name -/

namespace PatternReader

open Notation

variable {name : List Char} {f : PatternFlags} {items : List Notation}

/-- A reader outside all groups, with the items it has read, the latest first. -/
def level (f : PatternFlags) (items : List Notation) : PatternReader := ⟨⟨[], items, f⟩, [], []⟩

theorem head?_escape_append {back : List Char} (hback : back.head? ≠ some '?') :
    (Pattern.escape name ++ back).head? ≠ some '?' := by
  cases name with
  | nil => exact hback
  | cons c name =>
    by_cases hc : Pattern.isMeta c
    · rw [show Pattern.escape (c :: name) = '\\' :: c :: Pattern.escape name by
        simp [Pattern.escape, hc]]
      show some '\\' ≠ some '?'
      decide
    · rw [show Pattern.escape (c :: name) = c :: Pattern.escape name by
        simp [Pattern.escape, hc]]
      intro h
      obtain rfl : c = '?' := Option.some.inj h
      exact hc rfl

/-- White space as it is read. -/
def blankItem : Notation := .chars false (.known .blank)

/-- A character that is no white space, as it is read. -/
def solidItem : Notation := .chars false (.known (.complement .blank))

/-- At least one of an item, as it is read. -/
def someOf (item : Notation) : Notation := .repeated item 1 none true

/-- Any number of an item, as it is read. -/
def anyOf (item : Notation) : Notation := .repeated item 0 none true

/-- An item or nothing, as it is read. -/
def maybe (item : Notation) : Notation := .repeated item 0 (some 1) true

/-- A plus repeats the latest item, if no question mark follows. -/
theorem readFrom_plus (hverbose : f.verbose = false) (hswap : f.swapGreed = false) {r : List Char}
    (hr : r.head? ≠ some '?') (n : Nat) :
    readFrom (n + 1) (level f (blankItem :: items)) ('+' :: r) =
      readFrom n (level f (someOf blankItem :: items)) r := by
  have hskip : skip (level f (blankItem :: items)).flags ('+' :: r) = '+' :: r := by
    show (if f.verbose then _ else _) = _
    rw [hverbose]
    rfl
  have hquantify : (level f (blankItem :: items)).quantify 1 none r =
      some (level f (someOf blankItem :: items), r) := by
    unfold quantify
    split
    · rename_i hmatch
      split at hmatch
      · exact absurd rfl hr
      · obtain ⟨rfl, rfl⟩ := Prod.mk.inj hmatch
        show some (level f (.repeated blankItem 1 none (false == f.swapGreed) :: items), _) = _
        rw [hswap]
        rfl
  rw [readFrom, hskip]
  show ((level f (blankItem :: items)).quantify 1 none r).bind _ = _
  rw [hquantify]
  rfl

theorem foldl_pushChar (hcase : f.ignoreCase = false) (name : List Char) (items : List Notation) :
    name.foldl pushChar (level f items) = level f ((charItems name).reverse ++ items) := by
  induction name generalizing items with
  | nil => rfl
  | cons c name ih =>
    have hpush : (level f items).pushChar c = level f (.chars false (plainItem c) :: items) := by
      show level f (.chars f.ignoreCase (plainItem c) :: items) = _
      rw [hcase]
    rw [List.foldl_cons, hpush, ih]
    show _ = level f ((.chars false (plainItem c) :: charItems name).reverse ++ items)
    rw [List.reverse_cons, List.append_assoc]
    rfl

theorem length_le_length_escape (name : List Char) :
    name.length ≤ (Pattern.escape name).length := by
  induction name with
  | nil => exact Nat.le_refl _
  | cons c name ih =>
    have hcons : (Pattern.escape (c :: name)).length =
        (if Pattern.isMeta c then ['\\', c] else [c]).length + (Pattern.escape name).length := by
      simp [Pattern.escape]
    rw [hcons, List.length_cons]
    split
    · simp only [List.length_cons, List.length_nil]
      omega
    · simp only [List.length_cons, List.length_nil]
      omega

end PatternReader

open Notation PatternReader in
/-- How a template is read: in front of the name the same items whatever follows, and behind it the
same items whatever stands before. -/
structure TemplateReading (t : PatternTemplate) (parts : TemplateParts) where
  flags : PatternFlags := .initial
  /-- The text in front of the name, without the plus at its end. -/
  lead : List Char
  /-- The number of items in `lead`. -/
  steps : Nat
  /-- The items of `lead` in front of the one that the plus repeats. -/
  front : List Notation
  back : List Notation
  plain : flags.verbose = false ∧ flags.ignoreCase = false ∧ flags.swapGreed = false := by decide
  before_eq : t.before.toList = lead ++ ['+'] := by rfl
  steps_le : steps ≤ lead.length := by decide
  opens : ∀ n r, readFrom (n + steps) fresh (lead ++ r) =
    readFrom n (level flags (blankItem :: front.reverse)) r := by intro n r; rfl
  after_head : t.after.toList.head? ≠ some '?' := by decide
  closes : ∀ items, readFrom t.after.toList.length (level flags items) t.after.toList =
    some (level flags (back.reverse ++ items)) := by intro items; rfl
  front_eq : sequence? (front ++ [someOf blankItem]) = some (chain parts.front) := by rfl
  back_eq : sequence? back = some (chain parts.back) := by rfl
  depth_le : max (depthOfAll (front ++ [someOf blankItem])) (depthOfAll back) < maxDepth := by decide
  length_back : 0 < back.length := by decide

namespace TemplateReading

open Notation PatternReader

variable {t : PatternTemplate} {parts : TemplateParts}

/-- What is read of a template that is filled in. -/
def items (reading : TemplateReading t parts) (name : List Char) : List Notation :=
  reading.front ++ [someOf blankItem] ++ charItems name ++ reading.back

theorem readFrom_fill (reading : TemplateReading t parts) (name : String) :
    readFrom (t.fill name).toList.length fresh (t.fill name).toList =
      some (level reading.flags (reading.items name.toList).reverse) := by
  obtain ⟨hverbose, hcase, hswap⟩ := reading.plain
  have htext : (t.fill name).toList =
      reading.lead ++ ('+' :: (Pattern.escape name.toList ++ t.after.toList)) := by
    simp [PatternTemplate.fill, reading.before_eq]
  have hread : readFrom (t.after.toList.length + name.toList.length + 1 + reading.steps) fresh
      (t.fill name).toList = some (level reading.flags (reading.items name.toList).reverse) := by
    rw [htext, reading.opens,
      readFrom_plus hverbose hswap (head?_escape_append reading.after_head),
      readFrom_escape _ (level reading.flags _) hverbose, foldl_pushChar hcase, reading.closes]
    simp [items]
  refine readFrom_mono ?_ hread
  have hname := length_le_length_escape name.toList
  have hsteps := reading.steps_le
  rw [htext]
  simp only [List.length_append, List.length_cons]
  omega

/-- A template that is filled in is the row of its parts, with the name spelled out. -/
theorem compile?_fill (reading : TemplateReading t parts) (name : String) :
    Pattern.compile? (t.fill name).toList = some (chain (parts.fill name.toList)) := by
  have hclose : (level reading.flags (reading.items name.toList).reverse).current.close =
      .row (reading.items name.toList) := by
    show ofItems (reading.items name.toList).reverse.reverse = _
    rw [List.reverse_reverse, ofItems_of_two_le]
    have := reading.length_back
    simp only [items, List.length_append, List.length_singleton]
    omega
  have hdepth : depthOfAll (reading.items name.toList) < maxDepth := by
    rw [items, depthOfAll_append, depthOfAll_append, depthOfAll_charItems, Nat.max_zero]
    exact reading.depth_le
  have hfinish : (level reading.flags (reading.items name.toList).reverse).finish =
      some (.row (reading.items name.toList)) := by
    unfold PatternReader.finish
    rw [hclose]
    refine if_pos ?_
    show (true && decide (1 + depthOfAll (reading.items name.toList) ≤ maxDepth)) = true
    rw [Bool.true_and, decide_eq_true_eq]
    omega
  have hrow : sequence? (reading.items name.toList) = some (chain (parts.fill name.toList)) :=
    sequence?_append (sequence?_append reading.front_eq (sequence?_charItems _)) reading.back_eq
  unfold Pattern.compile? Notation.read?
  rw [reading.readFrom_fill, Option.bind_some, hfinish]
  exact hrow

end TemplateReading

/-! ## The templates of the dialects -/

namespace Dialect

open Notation PatternReader

/-- A word of a class head with the name that follows it, as it is read. -/
def clauseItem (word : List Char) : Notation :=
  maybe (.group (.row (someOf blankItem :: charItems word ++ [someOf blankItem, someOf solidItem])))

/-- One of several words, as it is read. -/
def wordItem (words : List (List Char)) : Notation :=
  .group (.choice (words.map fun word => .row (charItems word)))

def classReading : (d : Dialect) → TemplateReading d.classTemplate d.classParts
  | .java =>
    { lead := "class\\s".toList
      steps := 6
      front := charItems "class".toList
      back := [clauseItem "extends".toList, clauseItem "implements".toList, anyOf blankItem] ++
        charItems ['{'] }
  | .kotlin =>
    { lead := "class\\s".toList
      steps := 6
      front := charItems "class".toList
      back := anyOf blankItem :: charItems [':'] ++ [anyOf blankItem, someOf solidItem] ++
        charItems ['(', ')'] ++ [anyOf blankItem, maybe (.chars false (plainItem ',')),
          anyOf blankItem, maybe (.group (.row [someOf solidItem, anyOf blankItem]))] ++
        charItems ['{'] }

def methodReading : (d : Dialect) → TemplateReading d.methodTemplate d.methodParts
  | .java =>
    { lead := "(public|protected|private)\\s+(static\\s+)?\\S+\\s".toList
      steps := 42
      front := [wordItem ["public".toList, "protected".toList, "private".toList],
        someOf blankItem, maybe (.group (.row (charItems "static".toList ++ [someOf blankItem]))),
        someOf solidItem]
      back := anyOf blankItem :: charItems ['('] }
  | .kotlin =>
    { lead := "override\\s+fun\\s".toList
      steps := 14
      front := charItems "override".toList ++ someOf blankItem :: charItems "fun".toList
      back := anyOf blankItem :: charItems ['(', ')'] }

def importReading : (d : Dialect) → TemplateReading d.importTemplate d.importParts
  | .java =>
    { lead := "import\\s".toList
      steps := 7
      front := charItems "import".toList
      back := charItems [';'] }
  | .kotlin =>
    { flags := PatternFlags.initial.set .multiLine true
      lead := "(?m)import\\s".toList
      steps := 8
      front := .flags :: charItems "import".toList
      back := [anyOf blankItem, .boundary (PatternFlags.initial.set .multiLine true) .lineEnd] }

theorem compile?_packageText (d : Dialect) :
    Pattern.compile? d.packageText.toList = some (chain d.packageParts) := by
  cases d <;> decide +kernel

end Dialect

/-- Every declaration has a pattern, whatever the name. -/
theorem Anchor.pattern?_eq (d : Dialect) (a : Anchor) : a.pattern? d = some (chain (a.parts d)) := by
  cases a with
  | classHead name => exact d.classReading.compile?_fill name
  | methodHead name => exact d.methodReading.compile?_fill name
  | importOf path => exact d.importReading.compile?_fill path
  | package => exact d.compile?_packageText

theorem Body.anchorPattern_eq (d : Dialect) (a : Anchor) :
    Body.anchorPattern d a = .ok (chain (a.parts d)) := by
  unfold Body.anchorPattern
  rw [a.pattern?_eq d]

end AndroidFonts
