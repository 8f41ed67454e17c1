/-
# `AndroidFonts.Proofs.Source.Declarations` — the body that is found for a declaration

A body is looked for from the beginning of a declaration on: the first brace there opens it, and it is
found exactly if that brace is closed (`Opens`).  Nothing in this asks whose brace it is.  A declaration
may end at a semicolon and have no body, as that of an abstract method does (`IsBare`); then the next
body of the text is taken for its own, and there is none only if no brace follows or the first one is
never closed.

`body_of_declaration` says this of every declaration that is chosen.  What stands between its head and
the body holds a semicolon exactly if the declaration is bare, so those are the declarations that are
given the body of another one, and they are given it wherever there is one.
-/
import AndroidFonts.Proofs.Source.Nesting

namespace AndroidFonts

open Text

namespace Body

variable {b : Body} {mh : Match} {d : Dialect} {text className methodName : String}
  {front rest : List Char}

/-! ## The declaration that is chosen -/

/-- The declaration that a body is looked for by: the first one of the method that is listed behind the
beginning of the class. -/
def declaration? (text className methodName : String) (d : Dialect) : Option Match :=
  ((Anchor.classHead className).first? d text.toList).bind fun ch =>
    ((Anchor.methodHead methodName).all d text.toList).find? fun m => ch.start < m.start

theorem locate_of_declaration (h : declaration? text className methodName d = some mh) :
    locate text className methodName d =
      match firstIn? mh.before (mh.matched ++ mh.after) with
      | some b => .ok b
      | none => .error (.bodyNotFound className methodName) := by
  obtain ⟨ch, hch, hmh⟩ := Option.bind_eq_some_iff.1 h
  rw [locate_eq, hch]
  simp only [hmh]
  cases firstIn? mh.before (mh.matched ++ mh.after) with
  | none => rfl
  | some b => rfl

/-! ## Whether there is a body -/

/-- Whether the first brace of a text opens, and is closed. -/
def Opens (s : List Char) : Prop :=
  ∃ x y z, s = x ++ '{' :: (y ++ '}' :: z) ∧ '{' ∉ x ∧ Balanced y

theorem firstIn?_isSome_iff : (∃ b, firstIn? front rest = some b) ↔ Opens rest := by
  constructor
  · rintro ⟨b, hb⟩
    obtain ⟨head, hhead, -, hrest, hsplit⟩ := firstIn?_eq_some_iff.1 hb
    obtain ⟨-, hinside, z, hafter⟩ := splitAtClose?_eq_some_iff.1 hsplit
    exact ⟨head, b.inside, z, hafter ▸ hrest, hhead, hinside⟩
  · rintro ⟨x, y, z, rfl, hx, hy⟩
    exact ⟨⟨front ++ x ++ ['{'], y, '}' :: z⟩, firstIn?_eq_some_iff.2
      ⟨x, hx, rfl, rfl, splitAtClose?_eq_some_iff.2 ⟨rfl, hy, z, rfl⟩⟩⟩

/-! ## What stands in front of the body -/

/-- The text from the end of a head up to the brace of a body; nothing if the brace is in the head. -/
def gap (mh : Match) (b : Body) : List Char :=
  b.before.dropLast.drop (mh.before ++ mh.matched).length

/-- Whether a declaration ends at a semicolon, with no brace in its head and none up to there. -/
def IsBare (mh : Match) : Prop :=
  '{' ∉ mh.matched ∧ ∃ w r, mh.after = w ++ ';' :: r ∧ '{' ∉ w

/-- A brace in the head opens the body; otherwise the body opens at the first brace behind the head. -/
theorem gap_cases (h : firstIn? mh.before (mh.matched ++ mh.after) = some b) :
    ('{' ∈ mh.matched ∧ gap mh b = []) ∨
      '{' ∉ mh.matched ∧ '{' ∉ gap mh b ∧ ∃ rest, mh.after = gap mh b ++ '{' :: rest := by
  obtain ⟨head, hhead, hbefore, hrest, -⟩ := firstIn?_eq_some_iff.1 h
  have hgap : gap mh b = head.drop mh.matched.length := by
    rw [gap, hbefore, List.dropLast_concat, List.length_append, List.drop_append,
      List.drop_eq_nil_of_le (Nat.le_add_right ..), Nat.add_sub_cancel_left, List.nil_append]
  by_cases hbrace : '{' ∈ mh.matched
  · obtain ⟨u, v, hmatched, hu⟩ := List.eq_append_cons_of_mem hbrace
    rw [hmatched, List.append_assoc, List.cons_append] at hrest
    obtain ⟨rfl, -⟩ := append_cons_inj hu hhead hrest
    refine .inl ⟨hbrace, hgap.trans (List.drop_eq_nil_of_le ?_)⟩
    rw [hmatched, List.length_append]
    exact Nat.le_add_right ..
  · obtain ⟨x, rfl, hafter⟩ := exists_append_of_not_mem hbrace hrest
    rw [List.drop_left] at hgap
    exact .inr ⟨hbrace, hgap ▸ fun hx => hhead (List.mem_append_right _ hx), _, hgap ▸ hafter⟩

/-- In front of the first brace of a text there is a semicolon exactly if one comes before any brace. -/
theorem semicolon_mem_iff (hfront : '{' ∉ front) :
    ';' ∈ front ↔ ∃ w r, front ++ '{' :: rest = w ++ ';' :: r ∧ '{' ∉ w := by
  constructor
  · intro h
    obtain ⟨w, r, rfl⟩ := List.append_of_mem h
    exact ⟨w, r ++ '{' :: rest, by simp, fun hw => hfront (List.mem_append_left _ hw)⟩
  · rintro ⟨w, r, h, hw⟩
    obtain ⟨v, rfl, hv⟩ := exists_append_of_not_mem hw h.symm
    cases v with
    | nil => nomatch (List.cons.inj hv).1
    | cons c v =>
      obtain ⟨rfl, -⟩ := List.cons.inj hv
      exact List.mem_append_right _ List.mem_cons_self

/-- The body of a chosen declaration is found exactly if the first brace from the declaration on is
closed, and there is a semicolon in front of it exactly if the declaration has no body of its own. -/
theorem body_of_declaration (h : declaration? text className methodName d = some mh) :
    (Opens (mh.matched ++ mh.after) ∧ ∃ b, locate text className methodName d = .ok b ∧
      (';' ∈ gap mh b ↔ IsBare mh)) ∨
    (¬ Opens (mh.matched ++ mh.after) ∧
      locate text className methodName d = .error (.bodyNotFound className methodName)) := by
  rw [locate_of_declaration h]
  cases hbody : firstIn? mh.before (mh.matched ++ mh.after) with
  | none =>
    refine .inr ⟨fun hopens => ?_, rfl⟩
    obtain ⟨b, hb⟩ := firstIn?_isSome_iff.2 hopens
    nomatch hbody.symm.trans hb
  | some b =>
    refine .inl ⟨firstIn?_isSome_iff.1 ⟨b, hbody⟩, b, rfl, ?_⟩
    rcases gap_cases hbody with ⟨hbrace, hgap⟩ | ⟨hbrace, hclear, rest, hafter⟩
    · rw [hgap]
      exact iff_of_false List.not_mem_nil fun hbare => hbare.1 hbrace
    · rw [semicolon_mem_iff hclear, IsBare, hafter]
      exact (and_iff_right hbrace).symm

/-- A class with a method that has parameters and exceptions between its head and its body. -/
def ownBody : String := "class A\x7bpublic void f(int n) throws E \x7bg();\x7d\x7d"

theorem body_of_declaration_own : ∃ mh, declaration? ownBody "A" "f" .java = some mh ∧
    ∃ b, locate ownBody "A" "f" .java = .ok b ∧ b.inside = "g();".toList ∧ ';' ∉ gap mh b := by
  have hchosen : declaration? ownBody "A" "f" .java = some ⟨"class A\x7b".toList,
      "public void f(".toList, "int n) throws E \x7bg();\x7d\x7d".toList⟩ := by decide +kernel
  have hlocate : locate ownBody "A" "f" .java = .ok
      ⟨"class A\x7bpublic void f(int n) throws E \x7b".toList, "g();".toList,
        "\x7d\x7d".toList⟩ := by decide +kernel
  refine ⟨_, hchosen, _, hlocate, rfl, ?_⟩
  rcases body_of_declaration hchosen with ⟨-, b, hb, hgap⟩ | ⟨-, hnone⟩
  · obtain rfl := Except.ok.inj (hlocate.symm.trans hb)
    have hclear : '{' ∉ "int n) throws E ".toList := by decide
    have hnone : ';' ∉ "int n) throws E ".toList := by decide
    exact hgap.not.2 fun hbare => hnone ((semicolon_mem_iff hclear).2 hbare.2)
  · nomatch hlocate.symm.trans hnone

/-- An abstract method in front of one with a body. -/
def bareMethod : String :=
  "abstract class A\x7babstract public void f();public void g()\x7b\x7d\x7d"

/-- A method without a body is given that of the next one. -/
theorem body_of_next_method : ∃ mh b, declaration? bareMethod "A" "f" .java = some mh ∧
    IsBare mh ∧ locate bareMethod "A" "f" .java = .ok b ∧ b.span = ⟨57, 58⟩ ∧
    gap mh b = ");public void g()".toList := by
  refine ⟨⟨"abstract class A\x7babstract ".toList, "public void f(".toList,
      ");public void g()\x7b\x7d\x7d".toList⟩,
    ⟨"abstract class A\x7babstract public void f();public void g()\x7b".toList, [],
      "\x7d\x7d".toList⟩, ?_, ⟨?_, [')'], _, rfl, ?_⟩, ?_, ?_, ?_⟩
  all_goals decide +kernel

end Body

end AndroidFonts
