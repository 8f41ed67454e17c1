/-
# `AndroidFonts.Proofs.Text.Search` — where a text occurs

`cut?` finds the first occurrence.  A text occurs if and only if it is a run of the characters
(`occursIn_iff`), and so an occurrence is kept by whatever is written around it.  What is written
into a text breaks an occurrence only if it is written inside it: `infix_insert` says when that
cannot be.
-/
import AndroidFonts.Text.Offset
import AndroidFonts.Text.Search
import AndroidFonts.Unicode.Blank
import Mathlib.Data.List.Infix

namespace AndroidFonts.Text

variable {needle s p q p' q' r w x : List Char} {c : Char}

/-- The first occurrence of a character. -/
theorem cut?_singleton (h : c ∉ p) : cut? [c] (p ++ c :: q) = some (p, q) := by
  induction p with
  | nil =>
    have hfront : afterPrefix? [c] (c :: q) = some q := afterPrefix?_eq_some_iff.2 rfl
    rw [List.nil_append, cut?, hfront]
  | cons a p ih =>
    obtain ⟨hca, hcp⟩ := not_or.1 (mt List.mem_cons.2 h)
    have hnone : afterPrefix? [c] (a :: (p ++ c :: q)) = none := by
      show (if c = a then afterPrefix? [] (p ++ c :: q) else none) = none
      rw [if_neg hca]
    rw [List.cons_append, cut?, hnone, ih hcp]
    rfl

/-- The first place of a character tells a text apart. -/
theorem append_cons_inj (hp : c ∉ p) (hp' : c ∉ p') (h : p ++ c :: q = p' ++ c :: q') :
    p = p' ∧ q = q' := by
  have hcut := cut?_singleton (q := q) hp
  rw [h, cut?_singleton hp'] at hcut
  obtain ⟨rfl, rfl⟩ := Prod.mk.inj (Option.some.inj hcut)
  exact ⟨rfl, rfl⟩

/-- A quoted text stands in a text with two quotes only as what that text quotes. -/
theorem quoted_inj {u v : List Char} (hp : c ∉ p) (hs : c ∉ s) (hp' : c ∉ p') (hw : c ∉ w)
    (hq : c ∉ q')
    (h : u ++ (p ++ c :: (s ++ c :: q)) ++ v = p' ++ c :: (w ++ c :: q')) :
    u ++ p = p' ∧ s = w ∧ q ++ v = q' := by
  -- both quotes are used up, so none is left for what stands in front
  have hu : c ∉ u := by
    have hcount := congrArg (List.count c) h
    simp only [List.count_append, List.count_cons_self, List.count_eq_zero.2 hp,
      List.count_eq_zero.2 hs, List.count_eq_zero.2 hp', List.count_eq_zero.2 hw,
      List.count_eq_zero.2 hq] at hcount
    exact List.count_eq_zero.1 (by omega)
  have hfront : c ∉ u ++ p := fun hmem => (List.mem_append.1 hmem).elim hu hp
  have hsplit : (u ++ p) ++ c :: (s ++ c :: (q ++ v)) = p' ++ c :: (w ++ c :: q') := by
    rw [← h]
    simp
  obtain ⟨hleft, hrest⟩ := append_cons_inj hfront hp' hsplit
  exact ⟨hleft, append_cons_inj hs hw hrest⟩

/-- What stands before the first occurrence of a character does not hold it. -/
theorem cut?_singleton_iff : cut? [c] s = some (p, q) ↔ s = p ++ c :: q ∧ c ∉ p := by
  constructor
  · intro h
    refine ⟨by simpa using eq_append_of_cut? h, ?_⟩
    induction s generalizing p with
    | nil => cases h
    | cons a s ih =>
      rw [cut?] at h
      split at h
      · obtain ⟨rfl, -⟩ := Prod.mk.inj (Option.some.inj h)
        exact List.not_mem_nil
      · rename_i hnone
        obtain ⟨⟨p', q'⟩, hcut, heq⟩ := Option.map_eq_some_iff.1 h
        obtain ⟨rfl, rfl⟩ := Prod.mk.inj heq
        intro hmem
        rcases List.mem_cons.1 hmem with rfl | hmem
        · have hfront : afterPrefix? [c] (c :: s) = some s := afterPrefix?_eq_some_iff.2 rfl
          rw [hfront] at hnone
          cases hnone
        · exact ih hcut hmem
  · rintro ⟨rfl, h⟩
    exact cut?_singleton h

theorem cut?_self_append (needle w : List Char) : cut? needle (needle ++ w) = some ([], w) := by
  have hfront : afterPrefix? needle (needle ++ w) = some w := afterPrefix?_eq_some_iff.2 rfl
  cases h : needle ++ w with
  | nil =>
    rw [h] at hfront
    rw [cut?, hfront]
    rfl
  | cons a r =>
    rw [h] at hfront
    rw [cut?, hfront]

theorem cut?_isSome (needle p q : List Char) : (cut? needle (p ++ needle ++ q)).isSome = true := by
  induction p with
  | nil =>
    rw [List.nil_append, cut?_self_append]
    rfl
  | cons a p ih =>
    rw [List.cons_append, List.cons_append, cut?]
    split
    · rfl
    · rw [Option.isSome_map]
      exact ih

/-- A text occurs exactly where it is a run of the characters. -/
theorem occursIn_iff : occursIn needle s = true ↔ needle <:+: s := by
  constructor
  · intro h
    obtain ⟨⟨p, q⟩, hcut⟩ := Option.isSome_iff_exists.1 h
    exact ⟨p, q, (eq_append_of_cut? hcut).symm⟩
  · rintro ⟨p, q, rfl⟩
    exact cut?_isSome needle p q

/-- What a text does not begin with is looked for behind its first character. -/
theorem cut?_cons_of_not_prefix (h : ¬ needle <+: c :: s) :
    cut? needle (c :: s) = (cut? needle s).map fun (p, q) => (c :: p, q) := by
  have hnone : afterPrefix? needle (c :: s) = none :=
    Option.eq_none_iff_forall_ne_some.2 fun q hq => h ⟨q, (afterPrefix?_eq_some_iff.1 hq).symm⟩
  rw [cut?, hnone]

/-- An occurrence is the first one if none begins in front of it. -/
theorem cut?_of_forall (h : ∀ y z, x = y ++ z → z ≠ [] → ¬ needle <+: z ++ (needle ++ w)) :
    cut? needle (x ++ (needle ++ w)) = some (x, w) := by
  induction x with
  | nil => exact cut?_self_append needle w
  | cons a x ih =>
    have hnot : ¬ needle <+: a :: (x ++ (needle ++ w)) := h [] (a :: x) rfl (List.cons_ne_nil _ _)
    rw [List.cons_append, cut?_cons_of_not_prefix hnot,
      ih fun y z hyz => h (a :: y) z (by rw [hyz]; rfl)]
    rfl

/-- In front of the first occurrence there is none. -/
theorem not_infix_of_cut? (hne : needle ≠ []) (h : cut? needle s = some (p, q)) :
    ¬ needle <:+: p := by
  induction s generalizing p with
  | nil =>
    obtain ⟨r, -, hp⟩ := Option.map_eq_some_iff.1 h
    obtain ⟨rfl, rfl⟩ := Prod.mk.inj hp
    exact fun hin => hne (List.infix_nil.1 hin)
  | cons c s ih =>
    rw [cut?] at h
    split at h
    · obtain ⟨rfl, -⟩ := Prod.mk.inj (Option.some.inj h)
      exact fun hin => hne (List.infix_nil.1 hin)
    · rename_i hfront
      obtain ⟨⟨p', q'⟩, hcut, hp⟩ := Option.map_eq_some_iff.1 h
      obtain ⟨rfl, rfl⟩ := Prod.mk.inj hp
      intro hin
      rcases List.infix_cons_iff.1 hin with hprefix | hin
      · have hs := eq_append_of_cut? hcut
        obtain ⟨r, hr⟩ := hprefix
        have hsome : afterPrefix? needle (c :: s) = some (r ++ (needle ++ q')) := by
          rw [afterPrefix?_eq_some_iff, ← List.append_assoc, hr, hs]
          simp
        rw [hfront] at hsome
        cases hsome
      · exact ih hcut hin

/-- A run that holds no `c` is in front of a `c` or behind it. -/
theorem infix_of_infix_append_cons (hc : c ∉ needle) (h : needle <:+: p ++ c :: q) :
    needle <:+: p ∨ needle <:+: c :: q := by
  obtain ⟨a, b, hab⟩ := h
  rw [List.append_assoc, List.append_eq_append_iff] at hab
  rcases hab with ⟨m, rfl, hm⟩ | ⟨m, rfl, hm⟩
  · rw [List.append_eq_append_iff] at hm
    rcases hm with ⟨n, rfl, -⟩ | ⟨n, hn, hcq⟩
    · exact .inl ⟨a, n, by simp⟩
    · cases n with
      | nil => exact .inl ⟨a, [], by simp [hn]⟩
      | cons y n =>
        obtain ⟨rfl, -⟩ := List.cons.inj hcq
        exact absurd (by rw [hn]; simp) hc
  · exact .inr ⟨m, b, by rw [hm, List.append_assoc]⟩

/-- What is written before a `c` breaks no run without it. -/
theorem infix_insert (x : List Char) (hc : c ∉ needle) (h : needle <:+: p ++ c :: q) :
    needle <:+: p ++ x ++ c :: q := by
  rcases infix_of_infix_append_cons hc h with h | h
  · rw [List.append_assoc]
    exact h.trans (List.prefix_append _ _).isInfix
  · exact h.trans (List.suffix_append _ _).isInfix

theorem infix_of_infix_cons (hc : c ∉ needle) (h : needle <:+: c :: s) : needle <:+: s := by
  rcases List.infix_cons_iff.1 h with hfront | hrest
  · cases needle with
    | nil => exact List.nil_infix
    | cons a needle => exact absurd ((List.cons_prefix_cons.1 hfront).1 ▸ List.mem_cons_self) hc
  · exact hrest

/-- A text at the front without a `c` is in front of the first `c`. -/
theorem prefix_of_prefix_append_cons (hc : c ∉ needle) (h : needle <+: p ++ c :: q) :
    needle <+: p := by
  rcases List.prefix_or_prefix_of_prefix h (List.prefix_append p (c :: q)) with h' | ⟨m, rfl⟩
  · exact h'
  · rw [List.prefix_append_right_inj] at h
    cases m with
    | nil => rw [List.append_nil]
    | cons a m =>
      rw [(List.cons_prefix_cons.1 h).1] at hc
      exact absurd (List.mem_append_right _ List.mem_cons_self) hc

/-- What does not begin in the front of a text is a run of the rest. -/
theorem infix_of_infix_append (hhead : ∀ a, needle.head? = some a → a ∉ p)
    (h : needle <:+: p ++ q) : needle <:+: q := by
  induction p with
  | nil => exact h
  | cons a p ih =>
    rcases List.infix_cons_iff.1 h with hfront | hrest
    · cases needle with
      | nil => exact List.nil_infix
      | cons x needle =>
        exact absurd ((List.cons_prefix_cons.1 hfront).1 ▸ List.mem_cons_self) (hhead x rfl)
    · exact ih (fun x hx hmem => hhead x hx (List.mem_cons_of_mem _ hmem)) hrest

/-- A run that does not end in a character is in front of one at the end. -/
theorem infix_of_infix_concat (hlast : needle.getLast? ≠ some c) (h : needle <:+: p ++ [c]) :
    needle <:+: p := by
  obtain ⟨a, b, hab⟩ := h
  rcases List.eq_nil_or_concat' b with rfl | ⟨b, d, rfl⟩
  · rcases List.eq_nil_or_concat' needle with rfl | ⟨n, d, rfl⟩
    · exact List.nil_infix
    · rw [List.append_nil, ← List.append_assoc] at hab
      obtain ⟨-, hd⟩ := List.append_inj' hab rfl
      rw [List.getLast?_concat, (List.cons.inj hd).1] at hlast
      exact absurd rfl hlast
  · rw [← List.append_assoc] at hab
    exact ⟨a, b, (List.append_inj' hab rfl).1⟩

theorem infix_of_infix_append_last (hlast : needle.getLast? ≠ some c) (hr : r = [] ∨ r = [c])
    (h : needle <:+: p ++ r) : needle <:+: p := by
  rcases hr with rfl | rfl
  · rwa [List.append_nil] at h
  · exact infix_of_infix_concat hlast h

/-- A carriage return with its line feed is in front of a line feed, at it, or behind it. -/
theorem return_infix_append_cons (h : ['\r', '\n'] <:+: p ++ '\n' :: q) :
    ['\r', '\n'] <:+: p ∨ p.getLast? = some '\r' ∨ ['\r', '\n'] <:+: q := by
  obtain ⟨a, b, hab⟩ := h
  rw [List.append_assoc, List.append_eq_append_iff] at hab
  rcases hab with ⟨m, rfl, hm⟩ | ⟨m, rfl, hm⟩
  · rcases m with _ | ⟨c, _ | ⟨c', m⟩⟩
    · cases (List.cons.inj hm).1
    · obtain ⟨rfl, -⟩ := List.cons.inj hm
      exact .inr (.inl (List.getLast?_concat ..))
    · obtain ⟨hc, hrest⟩ := List.cons.inj hm
      obtain ⟨hc', -⟩ := List.cons.inj hrest
      exact .inl ⟨a, m, by rw [← hc, ← hc']; simp⟩
  · rcases m with _ | ⟨c, m⟩
    · cases (List.cons.inj hm).1
    · obtain ⟨-, rfl⟩ := List.cons.inj hm
      exact .inr (.inr ⟨m, b, by simp⟩)

/-- Of two beginnings of a text the one with fewer bytes is a beginning of the other. -/
theorem prefix_of_byteLength_le (hp : p <+: s) (hq : q <+: s) (h : byteLength p ≤ byteLength q) :
    p <+: q := by
  rcases List.prefix_or_prefix_of_prefix hp hq with hpq | ⟨r, rfl⟩
  · exact hpq
  · rw [byteLength_append] at h
    cases r with
    | nil => rw [List.append_nil]
    | cons c r =>
      have hc := c.utf8Size_pos
      rw [byteLength_cons] at h
      omega

/-! ## Trimming -/

theorem isInfix_trim (s : List Char) : Unicode.trim s <:+: s := by
  have hback : Unicode.trim s <+: s.dropWhile Unicode.isBlank := by
    rw [← List.reverse_suffix, Unicode.trim, List.reverse_reverse]
    exact List.dropWhile_suffix _
  exact hback.isInfix.trans (List.dropWhile_suffix _).isInfix

/-- A text with no white space at its ends is trimmed already. -/
theorem trim_eq_self (hfirst : ∀ c, s.head? = some c → Unicode.isBlank c = false)
    (hlast : ∀ c, s.getLast? = some c → Unicode.isBlank c = false) : Unicode.trim s = s := by
  have hdrop : ∀ s : List Char, (∀ c, s.head? = some c → Unicode.isBlank c = false) →
      s.dropWhile Unicode.isBlank = s := by
    intro s hs
    cases s with
    | nil => rfl
    | cons c s => exact List.dropWhile_cons_of_neg (by rw [hs c rfl]; nofun)
  unfold Unicode.trim
  rw [hdrop s hfirst, hdrop s.reverse (by rwa [List.head?_reverse]), List.reverse_reverse]

end AndroidFonts.Text
