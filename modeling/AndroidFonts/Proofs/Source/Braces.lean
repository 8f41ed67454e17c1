/-
# `AndroidFonts.Proofs.Source.Braces` — where a body ends

`depthAfter?` counts braces over a text, from some depth, and fails where one closes that was not
opened.  The text before the brace that closes a body is the one that leads from depth zero back to
it and is followed by a closing brace (`splitAtClose?_eq_some_iff`).  So a text that is balanced by
itself can be written anywhere into a body and moves its end by its own length
(`splitAtClose?_insert`).
-/
import AndroidFonts.Source.Body

namespace AndroidFonts

variable {d e n : Nat} {s p q r x : List Char} {c : Char}

/-- The depth behind a text that begins at some depth; none if a brace closes none. -/
def depthAfter? : Nat → List Char → Option Nat
  | d, [] => some d
  | d, c :: r =>
    match c, d with
    | '}', 0 => none
    | '}', d + 1 => depthAfter? d r
    | '{', d => depthAfter? (d + 1) r
    | _, d => depthAfter? d r

/-- A text with as many closing as opening braces, none of which closes before it is opened. -/
def Balanced (s : List Char) : Prop := depthAfter? 0 s = some 0

instance (s : List Char) : Decidable (Balanced s) :=
  inferInstanceAs (Decidable (depthAfter? 0 s = some 0))

/-! ## One character at a time -/

theorem depthAfter?_open (d : Nat) (r : List Char) :
    depthAfter? d ('{' :: r) = depthAfter? (d + 1) r := by
  cases d <;> rfl

theorem depthAfter?_other (hopen : c ≠ '{') (hclose : c ≠ '}') (d : Nat) (r : List Char) :
    depthAfter? d (c :: r) = depthAfter? d r := by
  conv => lhs; unfold depthAfter?
  split
  · exact absurd rfl hclose
  · exact absurd rfl hclose
  · exact absurd rfl hopen
  · rfl

theorem splitAtClose?_close (d : Nat) (r : List Char) :
    splitAtClose? (d + 1) ('}' :: r) = (splitAtClose? d r).map fun (p, q) => ('}' :: p, q) := rfl

theorem splitAtClose?_open (d : Nat) (r : List Char) :
    splitAtClose? d ('{' :: r) = (splitAtClose? (d + 1) r).map fun (p, q) => ('{' :: p, q) := by
  cases d <;> rfl

theorem splitAtClose?_other (hopen : c ≠ '{') (hclose : c ≠ '}') (d : Nat) (r : List Char) :
    splitAtClose? d (c :: r) = (splitAtClose? d r).map fun (p, q) => (c :: p, q) := by
  conv => lhs; unfold splitAtClose?
  split
  · exact absurd rfl hclose
  · exact absurd rfl hclose
  · exact absurd rfl hopen
  · rfl

/-- A character closes the body, or counting goes on behind it from some depth. -/
theorem depth_cases (d : Nat) (c : Char) : (c = '}' ∧ d = 0) ∨ ∃ e,
    (∀ n r, depthAfter? (d + n) (c :: r) = depthAfter? (e + n) r) ∧
      ∀ r, splitAtClose? d (c :: r) = (splitAtClose? e r).map fun (p, q) => (c :: p, q) := by
  by_cases hclose : c = '}'
  · obtain rfl := hclose
    cases d with
    | zero => exact .inl ⟨rfl, rfl⟩
    | succ d =>
      refine .inr ⟨d, fun n r => ?_, splitAtClose?_close d⟩
      rw [Nat.add_right_comm]
      rfl
  by_cases hopen : c = '{'
  · obtain rfl := hopen
    refine .inr ⟨d + 1, fun n r => ?_, splitAtClose?_open d⟩
    rw [depthAfter?_open, Nat.add_right_comm]
  · exact .inr ⟨d, fun n => depthAfter?_other hopen hclose (d + n),
      splitAtClose?_other hopen hclose d⟩

/-! ## Texts one after the other -/

theorem depthAfter?_append (d : Nat) (p q : List Char) :
    depthAfter? d (p ++ q) = (depthAfter? d p).bind fun e => depthAfter? e q := by
  induction p generalizing d with
  | nil => rfl
  | cons c p ih =>
    rcases depth_cases d c with ⟨rfl, rfl⟩ | ⟨e, hdepth, -⟩
    · rfl
    · have hfront : ∀ r, depthAfter? d (c :: r) = depthAfter? e r := hdepth 0
      rw [List.cons_append, hfront, hfront, ih]

/-- Starting deeper leads deeper. -/
theorem depthAfter?_add (h : depthAfter? d s = some e) (n : Nat) :
    depthAfter? (d + n) s = some (e + n) := by
  induction s generalizing d with
  | nil =>
    obtain rfl := Option.some.inj h
    rfl
  | cons c s ih =>
    rcases depth_cases d c with ⟨rfl, rfl⟩ | ⟨d', hdepth, -⟩
    · nomatch h
    · rw [hdepth n]
      exact ih ((hdepth 0 s).symm.trans h)

theorem depthAfter?_of_balanced (h : Balanced s) (d : Nat) : depthAfter? d s = some d := by
  have hdeep := depthAfter?_add h d
  rwa [Nat.zero_add] at hdeep

theorem balanced_of_not_mem (hopen : '{' ∉ s) (hclose : '}' ∉ s) : Balanced s := by
  induction s with
  | nil => rfl
  | cons c s ih =>
    have hc : c ≠ '{' ∧ c ≠ '}' := by
      constructor
      · rintro rfl
        exact hopen List.mem_cons_self
      · rintro rfl
        exact hclose List.mem_cons_self
    show depthAfter? 0 (c :: s) = some 0
    rw [depthAfter?_other hc.1 hc.2]
    exact ih (fun h => hopen (List.mem_cons_of_mem _ h)) fun h => hclose (List.mem_cons_of_mem _ h)

theorem Balanced.append (hp : Balanced p) (hq : Balanced q) : Balanced (p ++ q) := by
  show depthAfter? 0 (p ++ q) = some 0
  rw [depthAfter?_append, hp]
  exact hq

/-! ## The end of a body -/

/-- The text before the brace that closes a body leads back to where the body began. -/
theorem splitAtClose?_eq_some_iff : splitAtClose? d s = some (p, q) ↔
    s = p ++ q ∧ depthAfter? d p = some 0 ∧ ∃ r, q = '}' :: r := by
  constructor
  · intro h
    induction s generalizing d p with
    | nil => nomatch h
    | cons c s ih =>
      rcases depth_cases d c with ⟨rfl, rfl⟩ | ⟨e, hdepth, hrest⟩
      · obtain ⟨rfl, rfl⟩ := Prod.mk.inj (Option.some.inj h)
        exact ⟨rfl, rfl, s, rfl⟩
      · rw [hrest] at h
        obtain ⟨⟨p', q'⟩, hsplit, heq⟩ := Option.map_eq_some_iff.1 h
        obtain ⟨rfl, rfl⟩ := Prod.mk.inj heq
        obtain ⟨rfl, hp, hq⟩ := ih hsplit
        exact ⟨rfl, (hdepth 0 p').trans hp, hq⟩
  · rintro ⟨rfl, hp, r, rfl⟩
    induction p generalizing d with
    | nil =>
      obtain rfl := Option.some.inj hp
      rfl
    | cons c p ih =>
      rcases depth_cases d c with ⟨rfl, rfl⟩ | ⟨e, hdepth, hrest⟩
      · nomatch hp
      · have hp : depthAfter? e p = some 0 := (hdepth 0 p).symm.trans hp
        rw [List.cons_append, hrest, ih hp]
        rfl

/-- A balanced text that is written into a body moves its end by its own length. -/
theorem splitAtClose?_insert (hx : Balanced x)
    (h : splitAtClose? d (p ++ q ++ r) = some (p ++ q, r)) :
    splitAtClose? d (p ++ x ++ q ++ r) = some (p ++ x ++ q, r) := by
  obtain ⟨-, hdepth, hr⟩ := splitAtClose?_eq_some_iff.1 h
  refine splitAtClose?_eq_some_iff.2 ⟨rfl, ?_, hr⟩
  rw [depthAfter?_append] at hdepth
  obtain ⟨e, hp, hq⟩ := Option.bind_eq_some_iff.1 hdepth
  rw [List.append_assoc, depthAfter?_append, hp]
  show depthAfter? e (x ++ q) = some 0
  rw [depthAfter?_append, depthAfter?_of_balanced hx]
  exact hq

end AndroidFonts
