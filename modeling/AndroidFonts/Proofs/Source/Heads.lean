/-
# `AndroidFonts.Proofs.Source.Heads` — what declarations look like

What the pattern of a declaration takes up, written out: the words of the declaration and the name, one
behind the other, with white space between them.  A class head may run through braces, since a name that
follows `extends` or `implements` is any run of characters that are no white space; and so may the type
of a method.  These are the only places where a head can hold a brace in front of its end.
-/
import AndroidFonts.Proofs.Source.Anchors
import AndroidFonts.Proofs.Text.Runs

namespace AndroidFonts

open Text

namespace Pattern

variable {p : Pattern} {ps : List Pattern} {w r r' : List Char}

/-- What a pattern that looks at no more than it takes up takes up does not depend on what follows. -/
theorem Takes.of_isLocal (hp : p.isLocal = true) (h : Takes p w r) (r' : List Char) :
    Takes p w r' := by
  induction h generalizing r' with
  | empty => exact .empty
  | one hc => exact .one hc
  | many hw => exact .many hw
  | seq _ _ iha ihb =>
    obtain ⟨hp, hq⟩ := (Bool.and_eq_true _ _).mp hp
    exact .seq (iha hp _) (ihb hq r')
  | left _ ih => exact .left (ih ((Bool.and_eq_true _ _).mp hp).1 r')
  | right _ ih => exact .right (ih ((Bool.and_eq_true _ _).mp hp).2 r')
  | once _ ih => exact .once (ih hp r')
  | never => exact .never
  | stop => nomatch hp
  | again => nomatch hp
  | feed => nomatch hp
  | last => nomatch hp
  | textEnd => nomatch hp

/-! ## Parts -/

theorem takes_gap : Takes gap w r ↔ IsGap w := takes_many1

theorem takes_blanks : Takes (.many .blank) w r ↔ Blanks w := takes_many

theorem takes_solid : Takes solid w r ↔ IsWord w := by
  unfold solid IsWord
  rw [takes_many1]
  simp only [CharSet.has, Bool.not_eq_true']

theorem takes_chain_gap : Takes (chain (gap :: ps)) w r ↔
    ∃ g b, w = g ++ b ∧ IsGap g ∧ Takes (chain ps) b r := by
  rw [takes_chain_cons]
  simp only [takes_gap]

theorem takes_chain_solid : Takes (chain (solid :: ps)) w r ↔
    ∃ v b, w = v ++ b ∧ IsWord v ∧ Takes (chain ps) b r := by
  rw [takes_chain_cons]
  simp only [takes_solid]

theorem takes_chain_blanks : Takes (chain (.many .blank :: ps)) w r ↔
    ∃ g b, w = g ++ b ∧ Blanks g ∧ Takes (chain ps) b r := by
  rw [takes_chain_cons]
  simp only [takes_blanks]

theorem takes_chain_opt : Takes (chain (.opt p :: ps)) w r ↔
    ∃ a b, w = a ++ b ∧ (a = [] ∨ Takes p a (b ++ r)) ∧ Takes (chain ps) b r := by
  rw [takes_chain_cons]
  simp only [takes_opt, or_comm]

end Pattern

open Pattern

/-! ## Declarations in a text -/

namespace Anchor

/-- The leftmost declaration in a text. -/
def first? (a : Anchor) (d : Dialect) (s : List Char) : Option Match :=
  (a.pattern? d).bind fun p => p.find? s

/-- The declarations in a text, from the left and without overlap. -/
def all (a : Anchor) (d : Dialect) (s : List Char) : List Match :=
  (a.pattern? d).toList.flatMap fun p => p.findAll s

theorem first?_eq (a : Anchor) (d : Dialect) (s : List Char) :
    a.first? d s = (chain (a.parts d)).find? s := by
  rw [first?, a.pattern?_eq]
  rfl

theorem all_eq (a : Anchor) (d : Dialect) (s : List Char) :
    a.all d s = (chain (a.parts d)).findAll s := by
  rw [all, a.pattern?_eq]
  exact List.flatMap_singleton ..

end Anchor

/-- A body is looked for behind the leftmost class head and the first method head behind its beginning;
what can be missing is the class, the method or the body. -/
theorem Body.locate_eq (text className methodName : String) (d : Dialect) :
    Body.locate text className methodName d =
      match (Anchor.classHead className).first? d text.toList with
      | none => .error (.classNotFound className)
      | some ch =>
        match ((Anchor.methodHead methodName).all d text.toList).find? fun m => ch.start < m.start with
        | none => .error (.methodNotFound className methodName)
        | some mh =>
          match Body.firstIn? mh.before (mh.matched ++ mh.after) with
          | none => .error (.bodyNotFound className methodName)
          | some b => .ok b := by
  rw [Anchor.first?_eq, Anchor.all_eq]
  unfold Body.locate
  rw [Body.anchorPattern_eq, Body.anchorPattern_eq]
  simp only [bind, Except.bind]
  cases (chain ((Anchor.classHead className).parts d)).find? text.toList with
  | none => rfl
  | some ch =>
    simp only
    cases ((chain ((Anchor.methodHead methodName).parts d)).findAll text.toList).find? fun m =>
        ch.start < m.start with
    | none => rfl
    | some mh =>
      simp only
      cases Body.firstIn? mh.before (mh.matched ++ mh.after) with
      | none => rfl
      | some b => rfl

namespace Dialect

variable {name path w r : List Char}

/-! ## Imports and the package -/

/-- Whether a line ends at the front of a text. -/
def AtLineEnd (r : List Char) : Prop := r = [] ∨ ∃ t, r = '\n' :: t

theorem takes_import_java : Takes (chain (Dialect.java.importParts.fill path)) w r ↔
    ∃ g, w = "import".toList ++ (g ++ (path ++ [';'])) ∧ IsGap g := by
  have hparts : Dialect.java.importParts.fill path =
      spelled "import".toList ++ gap :: (spelled path ++ spelled [';']) := by
    simp [TemplateParts.fill, importParts]
  rw [hparts]
  simp only [takes_spelled_append, takes_chain_gap, takes_spelled]
  constructor
  · rintro ⟨-, rfl, g, -, rfl, hg, -, rfl, rfl⟩
    exact ⟨g, rfl, hg⟩
  · rintro ⟨g, rfl, hg⟩
    exact ⟨_, rfl, g, _, rfl, hg, _, rfl, rfl⟩

theorem takes_import_kotlin : Takes (chain (Dialect.kotlin.importParts.fill path)) w r ↔
    ∃ g g', w = "import".toList ++ (g ++ (path ++ g')) ∧ IsGap g ∧ Blanks g' ∧ AtLineEnd r := by
  have hparts : Dialect.kotlin.importParts.fill path =
      .empty :: (spelled "import".toList ++ gap :: (spelled path ++ [.many .blank, .lineEnd])) := by
    simp [TemplateParts.fill, importParts]
  have hempty : ∀ {ps : List Pattern} {w}, Takes (chain (.empty :: ps)) w r ↔ Takes (chain ps) w r := by
    intro ps w
    rw [takes_chain_cons]
    constructor
    · rintro ⟨-, b, rfl, ⟨⟩, hb⟩
      exact hb
    · exact fun hb => ⟨[], w, rfl, .empty, hb⟩
  have hend : ∀ {w}, Takes (chain [.lineEnd]) w r ↔ w = [] ∧ AtLineEnd r := by
    intro w
    simp only [takes_chain_cons, takes_chain_nil]
    constructor
    · rintro ⟨a, -, rfl, ha, rfl⟩
      obtain ⟨rfl, hr⟩ := takes_lineEnd.1 ha
      exact ⟨rfl, hr⟩
    · rintro ⟨rfl, hr⟩
      exact ⟨[], [], rfl, takes_lineEnd.2 ⟨rfl, hr⟩, rfl⟩
  rw [hparts, hempty]
  simp only [takes_spelled_append, takes_chain_gap, takes_chain_blanks, hend]
  constructor
  · rintro ⟨-, rfl, g, -, rfl, hg, -, rfl, g', -, rfl, hg', rfl, hr⟩
    exact ⟨g, g', by rw [List.append_nil], hg, hg', hr⟩
  · rintro ⟨g, g', rfl, hg, hg', hr⟩
    exact ⟨_, rfl, g, _, rfl, hg, _, rfl, g', [], (List.append_nil g').symm, hg', rfl, hr⟩

/-- The characters that the name of a package is made of. -/
def packageSet : CharSet := .union .word (.single '.')

theorem takes_package_kotlin : Takes (chain Dialect.kotlin.packageParts) w r ↔
    ∃ g n, w = "package".toList ++ (g ++ n) ∧ IsGap g ∧ n ≠ [] ∧ ∀ c ∈ n, packageSet.has c = true := by
  have hparts : Dialect.kotlin.packageParts =
      spelled "package".toList ++ gap :: [many1 packageSet] := rfl
  rw [hparts]
  simp only [takes_spelled_append, takes_chain_gap]
  simp only [takes_chain_cons, takes_chain_nil, takes_many1]
  constructor
  · rintro ⟨-, rfl, g, -, rfl, hg, n, -, rfl, ⟨hn, hset⟩, rfl⟩
    exact ⟨g, n, by rw [List.append_nil], hg, hn, hset⟩
  · rintro ⟨g, n, rfl, hg, hn, hset⟩
    exact ⟨_, rfl, g, n, rfl, hg, n, [], (List.append_nil n).symm, ⟨hn, hset⟩, rfl⟩

theorem isWord_of_packageSet (hne : w ≠ []) (hset : ∀ c ∈ w, packageSet.has c = true) : IsWord w := by
  refine ⟨hne, fun c hc => Bool.eq_false_iff.2 fun hblank => ?_⟩
  have hmem := hset c hc
  rcases (Bool.or_eq_true _ _).mp hmem with hword | hdot
  · have := Unicode.isWordChar_of_isBlank hblank
    rw [show Unicode.isWordChar c = true from hword] at this
    nomatch this
  · rw [beq_iff_eq.1 hdot] at hblank
    exact absurd (Unicode.toNat_of_isBlank hblank) (by decide)

/-! ## Classes and methods -/

/-- Whether a text is a name of letters, digits and low lines. -/
def IsIdentifier (name : List Char) : Prop :=
  name ≠ [] ∧ ∀ c ∈ name, c.isAlphanum = true ∨ c = '_'

instance (name : List Char) : Decidable (IsIdentifier name) :=
  decidable_of_iff (name ≠ [] ∧ name.all (fun c => c.isAlphanum || c == '_') = true)
    (by simp [IsIdentifier])

theorem IsIdentifier.brace_not_mem (h : IsIdentifier name) : '{' ∉ name := fun hmem => by
  rcases h.2 _ hmem with hletter | hline
  · exact absurd hletter (by decide)
  · exact absurd hline (by decide)

/-- Whether a text is a word of a class head with a name that follows it. -/
def IsClause (word w : List Char) : Prop :=
  ∃ g g' v, w = g ++ (word ++ (g' ++ v)) ∧ IsGap g ∧ IsGap g' ∧ IsWord v

theorem takes_clause {word : List Char} : Takes (clause word) w r ↔ IsClause word w := by
  have hparts : clause word = chain (gap :: (spelled word ++ [gap, solid])) := rfl
  rw [hparts]
  simp only [takes_chain_gap, takes_spelled_append, takes_chain_solid, takes_chain_nil]
  constructor
  · rintro ⟨g, -, rfl, hg, -, rfl, g', -, rfl, hg', v, -, rfl, hv, rfl⟩
    exact ⟨g, g', v, by rw [List.append_nil], hg, hg', hv⟩
  · rintro ⟨g, g', v, rfl, hg, hg', hv⟩
    exact ⟨g, _, rfl, hg, _, rfl, g', _, rfl, hg', v, [], (List.append_nil v).symm, hv, rfl⟩

theorem takes_class_java : Takes (chain (Dialect.java.classParts.fill name)) w r ↔
    ∃ g e i t, w = "class".toList ++ (g ++ (name ++ (e ++ (i ++ (t ++ ['{']))))) ∧ IsGap g ∧
      (e = [] ∨ IsClause "extends".toList e) ∧ (i = [] ∨ IsClause "implements".toList i) ∧
      Blanks t := by
  have hparts : Dialect.java.classParts.fill name =
      spelled "class".toList ++ gap :: (spelled name ++ .opt (clause "extends".toList) ::
        .opt (clause "implements".toList) :: .many .blank :: spelled ['{']) := by
    simp [TemplateParts.fill, classParts]
  rw [hparts]
  simp only [takes_spelled_append, takes_chain_gap, takes_chain_opt, takes_clause, takes_chain_blanks,
    takes_spelled]
  constructor
  · rintro ⟨-, rfl, g, -, rfl, hg, -, rfl, e, -, rfl, he, i, -, rfl, hi, t, -, rfl, ht, rfl⟩
    exact ⟨g, e, i, t, rfl, hg, he, hi, ht⟩
  · rintro ⟨g, e, i, t, rfl, hg, he, hi, ht⟩
    exact ⟨_, rfl, g, _, rfl, hg, _, rfl, e, _, rfl, he, i, _, rfl, hi, t, _, rfl, ht, rfl⟩

theorem exists_of_takes_class_kotlin (h : Takes (chain (Dialect.kotlin.classParts.fill name)) w r) :
    ∃ g t₁ t₂ v t₃ k t₄ l, w = "class".toList ++ (g ++ (name ++ (t₁ ++ ([':'] ++ (t₂ ++ (v ++
        (['(', ')'] ++ (t₃ ++ (k ++ (t₄ ++ (l ++ ['{']))))))))))) ∧
      IsGap g ∧ Blanks t₁ ∧ Blanks t₂ ∧ IsWord v ∧ Blanks t₃ ∧ (k = [] ∨ k = [',']) ∧ Blanks t₄ ∧
      (l = [] ∨ ∃ v' t, l = v' ++ t ∧ IsWord v' ∧ Blanks t) := by
  have hparts : Dialect.kotlin.classParts.fill name =
      spelled "class".toList ++ gap :: (spelled name ++ .many .blank :: (spelled [':'] ++
        .many .blank :: solid :: (spelled ['(', ')'] ++ .many .blank :: .opt (.one (.single ',')) ::
          .many .blank :: .opt (chain [solid, .many .blank]) :: spelled ['{']))) := by
    simp [TemplateParts.fill, classParts]
  rw [hparts] at h
  simp only [takes_spelled_append, takes_chain_gap, takes_chain_opt, takes_chain_blanks,
    takes_chain_solid, takes_spelled, takes_single, takes_chain_nil] at h
  obtain ⟨-, rfl, g, -, rfl, hg, -, rfl, t₁, -, rfl, ht₁, -, rfl, t₂, -, rfl, ht₂, v, -, rfl, hv, -, rfl,
    t₃, -, rfl, ht₃, k, -, rfl, hk, t₄, -, rfl, ht₄, l, -, rfl, hl, rfl⟩ := h
  refine ⟨g, t₁, t₂, v, t₃, k, t₄, l, rfl, hg, ht₁, ht₂, hv, ht₃, hk, ht₄, hl.imp_right ?_⟩
  rintro ⟨v', -, rfl, hv', t, -, rfl, ht, rfl⟩
  exact ⟨v', t, by rw [List.append_nil], hv', ht⟩

/-- The words for who may call a method. -/
def accessWords : List (List Char) := ["public".toList, "protected".toList, "private".toList]

theorem takes_access : Takes access w r ↔ w ∈ accessWords := by
  unfold access accessWords
  simp only [takes_alt, takes_spelled, List.mem_cons, List.not_mem_nil, or_false]

theorem exists_of_takes_method_java (h : Takes (chain (Dialect.java.methodParts.fill name)) w r) :
    ∃ k g st v g' t, w = k ++ (g ++ (st ++ (v ++ (g' ++ (name ++ (t ++ ['('])))))) ∧ k ∈ accessWords ∧
      IsGap g ∧ (st = [] ∨ ∃ u, st = "static".toList ++ u ∧ IsGap u) ∧ IsWord v ∧ IsGap g' ∧
      Blanks t := by
  have hparts : Dialect.java.methodParts.fill name =
      access :: gap :: .opt (chain (spelled "static".toList ++ [gap])) :: solid :: gap ::
        (spelled name ++ .many .blank :: spelled ['(']) := by
    simp [TemplateParts.fill, methodParts]
  rw [hparts, takes_chain_cons] at h
  simp only [takes_access, takes_spelled_append, takes_chain_gap, takes_chain_opt, takes_chain_blanks,
    takes_chain_solid, takes_spelled, takes_chain_nil] at h
  obtain ⟨k, -, rfl, hk, g, -, rfl, hg, st, -, rfl, hst, v, -, rfl, hv, g', -, rfl, hg', -, rfl, t, -,
    rfl, ht, rfl⟩ := h
  refine ⟨k, g, st, v, g', t, rfl, hk, hg, hst.imp_right ?_, hv, hg', ht⟩
  rintro ⟨-, rfl, u, -, rfl, hu, rfl⟩
  exact ⟨u, by rw [List.append_nil], hu⟩

theorem exists_of_takes_method_kotlin
    (h : Takes (chain (Dialect.kotlin.methodParts.fill name)) w r) :
    ∃ g g' t, w = "override".toList ++ (g ++ ("fun".toList ++ (g' ++ (name ++ (t ++ ['(', ')']))))) ∧
      IsGap g ∧ IsGap g' ∧ Blanks t := by
  have hparts : Dialect.kotlin.methodParts.fill name =
      spelled "override".toList ++ gap :: (spelled "fun".toList ++ gap ::
        (spelled name ++ .many .blank :: spelled ['(', ')'])) := by
    simp [TemplateParts.fill, methodParts]
  rw [hparts] at h
  simp only [takes_spelled_append, takes_chain_gap, takes_chain_blanks, takes_spelled] at h
  obtain ⟨-, rfl, g, -, rfl, hg, -, rfl, g', -, rfl, hg', -, rfl, t, -, rfl, ht, rfl⟩ := h
  exact ⟨g, g', t, rfl, hg, hg', ht⟩

/-- A class head ends with the brace of the class. -/
theorem exists_of_takes_class {d : Dialect} (h : Takes (chain (d.classParts.fill name)) w r) :
    ∃ v, w = v ++ ['{'] := by
  obtain ⟨ps, hparts⟩ : ∃ ps, d.classParts.fill name = ps ++ spelled ['{'] := by
    cases d with
    | java => exact ⟨_, (List.append_assoc ..).symm⟩
    | kotlin => exact ⟨_, (List.append_assoc ..).symm⟩
  rw [hparts] at h
  obtain ⟨v, b, rfl, -, hb⟩ := takes_chain_append.1 h
  exact ⟨v, by rw [takes_spelled.1 hb]⟩

/-- The patterns of classes and methods look at no more than they take up. -/
theorem isLocal_class (d : Dialect) (name : List Char) :
    (chain (d.classParts.fill name)).isLocal = true := by
  rw [isLocal_chain, TemplateParts.fill, List.all_append, List.all_append, isLocal_spelled]
  cases d with
  | java => decide
  | kotlin => decide

theorem isLocal_method (d : Dialect) (name : List Char) :
    (chain (d.methodParts.fill name)).isLocal = true := by
  rw [isLocal_chain, TemplateParts.fill, List.all_append, List.all_append, isLocal_spelled]
  cases d with
  | java => decide
  | kotlin => decide

end Dialect

end AndroidFonts
