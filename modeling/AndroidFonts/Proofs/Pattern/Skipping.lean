/-
# `AndroidFonts.Proofs.Pattern.Skipping` — parts of a text where nothing is looked for

The listed matches of a text come from a walk, and where the walk goes on depends on the match that it
has met last.  So the matches behind some place are not in general those of the rest of the text: a
match that begins in front of the place and runs over it may cover what would be a match.

Where no match begins in what such a match covers, the walk behind the place is that of the rest
(`firstWhere_findFrom_append`).  A part of a text in which no match begins at all is passed over
(`Clear`, `findFrom_of_clear`); whether one is can be found out by reading it (`clear_of_dead`).
-/
import AndroidFonts.Proofs.Pattern.Insertion
import Mathlib.Data.List.Infix

namespace AndroidFonts

open Text

/-- The same match in a text with more in front. -/
def Match.behind (front : List Char) (m : Match) : Match := { m with before := front ++ m.before }

namespace Pattern

variable {p : Pattern} {s x y z o r a b c w : List Char} {m : Match} {n : Nat}
  {begins : List Char → Bool}

theorem map_shift_map_behind (e : Char) (x : List Char) (ms : List Match) :
    (ms.map (·.behind x)).map (·.shift e) = ms.map (·.behind (e :: x)) := by
  rw [List.map_map]
  rfl

/-! ## Parts without the beginning of a match -/

/-- Whether no match begins in a text in front of another one. -/
def Clear (p : Pattern) (x z : List Char) : Prop :=
  ∀ a b, x = a ++ b → b ≠ [] → p.ends (b ++ z) = []

theorem Clear.nil (p : Pattern) (z : List Char) : p.Clear [] z := by
  intro a b hab hb
  exact absurd (List.append_eq_nil_iff.1 hab.symm).2 hb

theorem Clear.tail {e : Char} (h : p.Clear (e :: x) z) : p.Clear x z :=
  fun a b hab => h (e :: a) b (congrArg _ hab)

theorem Clear.matchAt? {e : Char} (h : p.Clear (e :: x) z) : p.matchAt? (e :: (x ++ z)) = none :=
  matchAt?_eq_none_iff.2 (h [] (e :: x) rfl (List.cons_ne_nil _ _))

/-- A walk passes over a part in which no match begins, whether it has been covered or not. -/
theorem findFrom_of_clear (h : p.Clear x z) (hn : n ≤ x.length) :
    p.findFrom n (x ++ z) = (p.findFrom 0 z).map (·.behind x) := by
  induction x generalizing n with
  | nil =>
    obtain rfl := Nat.le_zero.1 hn
    exact (List.map_id _).symm
  | cons e x ih =>
    rw [List.cons_append, ← map_shift_map_behind]
    have hpass : n = 0 → ∀ m, p.matchAt? (e :: (x ++ z)) = some m → m.matched = [] :=
      fun _ m hm => nomatch h.matchAt?.symm.trans hm
    rw [findFrom_cons_of_pass hpass, ih h.tail (Nat.sub_le_of_le_add hn)]

/-- The leftmost match passes over a part in which no match begins. -/
theorem find?_of_clear (h : p.Clear x z) : p.find? (x ++ z) = (p.find? z).map (·.behind x) := by
  induction x with
  | nil => exact (Option.map_id_apply ..).symm
  | cons e x ih =>
    rw [List.cons_append, find?_cons_of_none h.matchAt?, ih h.tail, Option.map_map]
    rfl

/-- A text whose ends have all been read to nothing holds no beginning of a match. -/
theorem clear_of_dead (hp : p.isLocal = true) (hnull : p.nullable = false)
    (hdead : ∀ b ∈ x.tails, b ≠ [] → dead b [p] = true) (z : List Char) : p.Clear x z := by
  intro a b hab hb
  refine List.eq_nil_iff_forall_not_mem.2 fun r hr => ?_
  have hread := hdead b ((List.mem_tails ..).2 ⟨a, hab.symm⟩) hb
  have hlocal : ∀ k ∈ [p], k.isLocal = true := fun k hk => List.mem_singleton.1 hk ▸ hp
  have hwhole := eq_of_dead hlocal hread List.mem_cons_self hr
  -- a match that stops where it begins takes up nothing
  rw [hwhole] at hr
  rw [nullable_of_self_mem hp hr] at hnull
  nomatch hnull

/-! ## The walk behind a place -/

theorem firstWhere_map_behind (begins : List Char → Bool) (ms : List Match) (x : List Char) :
    firstWhere begins (ms.map (·.behind x)) =
      (firstWhere (fun before => begins (x ++ before)) ms).map (·.behind x) := List.find?_map ..

/-- Whether a match that begins in a text and runs over its end covers no beginning of a match. -/
def RunsClear (p : Pattern) (a s : List Char) : Prop :=
  ∀ b c o z, a = b ++ c → c ≠ [] → s = o ++ z → p.matchAt? (c ++ s) = some ⟨[], c ++ o, z⟩ →
    p.Clear o z

theorem RunsClear.tail {e : Char} (h : p.RunsClear (e :: a) s) : p.RunsClear a s :=
  fun b c o z hbc => h (e :: b) c o z (congrArg _ hbc)

/-- Where a walk is after a match that begins in a text: in the text, or behind it in a part in which no
match begins. -/
theorem RunsClear.covered (h : p.RunsClear a s) (hne : a ≠ [])
    (hm : p.matchAt? (a ++ s) = some m) :
    ∃ o z, s = o ++ z ∧ m.matched.length ≤ a.length + o.length ∧ p.Clear o z := by
  obtain ⟨b, w, r⟩ := m
  obtain ⟨rfl, htext, -⟩ := matchAt?_eq_some_iff.1 hm
  rcases List.append_eq_append_iff.1 htext with ⟨o, rfl, hs⟩ | ⟨c, rfl, -⟩
  · refine ⟨o, r, hs, Nat.le_of_eq List.length_append, ?_⟩
    exact h [] a o r rfl hne hs hm
  · refine ⟨[], s, rfl, ?_, .nil p s⟩
    show w.length ≤ (w ++ c).length + 0
    rw [List.length_append]
    omega

/-- The first listed match of some kind that begins behind a text is that of what follows the text, if
the matches that run over its end cover no beginning of a match. -/
theorem firstWhere_findFrom_append (hover : p.RunsClear a s)
    (hbegins : ∀ b c, a = b ++ c → c ≠ [] → begins b = false) (hs : s = o ++ z)
    (hn : n ≤ a.length + o.length) (hclear : p.Clear o z) :
    firstWhere begins (p.findFrom n (a ++ s)) =
      (firstWhere (fun before => begins (a ++ before)) (p.findFrom 0 s)).map (·.behind a) := by
  -- what the walk has covered ends in `a`, or in a part `o` behind it in which no match begins
  induction a generalizing n o z begins with
  | nil =>
    rw [List.length_nil, Nat.zero_add] at hn
    rw [List.nil_append, ← firstWhere_map_behind, hs, findFrom_of_clear hclear hn,
      findFrom_of_clear hclear (Nat.zero_le _)]
    exact congrArg _ (List.map_id _).symm
  | cons e a ih =>
    have hrest : ∀ {k o z}, s = o ++ z → k ≤ a.length + o.length → p.Clear o z →
        firstWhere begins ((p.findFrom k (a ++ s)).map (·.shift e)) =
          (firstWhere (fun before => begins (e :: a ++ before)) (p.findFrom 0 s)).map
            (·.behind (e :: a)) := by
      intro k o z hs hk hclear
      have htail : ∀ b c, a = b ++ c → c ≠ [] → begins (e :: b) = false :=
        fun b c hbc => hbegins (e :: b) c (congrArg _ hbc)
      rw [firstWhere_map_shift, ih hover.tail htail hs hk hclear, Option.map_map]
      rfl
    rw [List.cons_append]
    rcases findFrom_cons_cases p n e (a ++ s) with ⟨-, hwalk⟩ | ⟨m, -, hmatch, -, hwalk⟩
    · rw [List.length_cons] at hn
      rw [hwalk]
      exact hrest hs (by omega) hclear
    · have hnot : ¬ begins m.before = true := by
        rw [(text_of_matchAt? hmatch).2.1, hbegins [] (e :: a) rfl (List.cons_ne_nil _ _)]
        exact Bool.false_ne_true
      rw [hwalk, firstWhere_cons_of_neg hnot]
      obtain ⟨o', z', hs', hle, hclear'⟩ := hover.covered (List.cons_ne_nil e a) hmatch
      rw [List.length_cons] at hle
      exact hrest hs' (by omega) hclear'

/-- A text that stops a pattern is run over by no match. -/
theorem RunsClear.of_stops (hx : p.Stops x) (a y : List Char) : p.RunsClear a (x ++ y) := by
  intro b c o z hbc hc hs hmatch
  obtain ⟨-, -, hr⟩ := matchAt?_eq_some_iff.1 hmatch
  have hle := hx c y z (List.mem_of_mem_head? hr)
  rw [hs, List.length_append] at hle
  obtain rfl := List.length_eq_zero_iff.1 (show o.length = 0 by omega)
  exact .nil p z

/-! ## Insertions in front of what is found -/

theorem Clear.insert (hp : p.isLocal = true) (hx : p.Stops x) (h : p.Clear a s) :
    p.Clear a (x ++ s) :=
  fun b c hbc hc => ends_eq_nil_of_forall_le hp (hx c s) (h b c hbc hc)

/-- No match begins in front of the leftmost one. -/
theorem clear_of_find? (h : p.find? (a ++ s) = some ⟨a ++ c, w, r⟩) :
    s = c ++ (w ++ r) ∧ p.Clear a s := by
  obtain ⟨htext, -, hnone⟩ := find?_eq_some_iff.1 h
  rw [List.append_assoc] at htext
  obtain rfl := List.append_cancel_left htext
  refine ⟨rfl, fun b u hbu hu => ?_⟩
  have hbefore := hnone b (u ++ c) (by rw [hbu, List.append_assoc])
    fun hnil => hu (List.append_eq_nil_iff.1 hnil).1
  rwa [List.append_assoc] at hbefore

/-- The leftmost match moves with what follows an insertion, if the insertion is run into by no match
and holds no beginning of one. -/
theorem find?_insert_before (hp : p.isLocal = true) (hx : p.Stops x) (hclear : p.Clear x s)
    (h : p.find? (a ++ s) = some ⟨a ++ c, w, r⟩) :
    p.find? (a ++ (x ++ s)) = some ⟨a ++ (x ++ c), w, r⟩ := by
  obtain ⟨-, hfront⟩ := clear_of_find? h
  rw [find?_of_clear hfront] at h
  obtain ⟨⟨b, w', r'⟩, hm, heq⟩ := Option.map_eq_some_iff.1 h
  obtain ⟨hb, rfl, rfl⟩ := Match.mk.inj heq
  obtain rfl := List.append_cancel_left hb
  rw [find?_of_clear (hfront.insert hp hx), find?_of_clear hclear, hm]
  rfl

/-- So does the first listed match of some kind. -/
theorem firstWhere_insert_before {begins' : List Char → Bool} (hx : p.Stops x)
    (hclear : p.Clear x s) (hover : p.RunsClear a s)
    (hfront : ∀ b c, a = b ++ c → c ≠ [] → begins b = false ∧ begins' b = false)
    (hsame : ∀ before, begins' (a ++ (x ++ before)) = begins (a ++ before)) :
    ∃ found : Option Match, firstWhere begins (p.findAll (a ++ s)) = found.map (·.behind a) ∧
      firstWhere begins' (p.findAll (a ++ (x ++ s))) = found.map (·.behind (a ++ x)) := by
  refine ⟨_, firstWhere_findFrom_append hover (fun b c hbc hc => (hfront b c hbc hc).1)
    (o := []) rfl (Nat.zero_le _) (.nil p s), ?_⟩
  have hwalk : firstWhere begins' (p.findFrom 0 (a ++ (x ++ s))) = _ :=
    firstWhere_findFrom_append (.of_stops hx a s) (fun b c hbc hc => (hfront b c hbc hc).2)
      (o := []) rfl (Nat.zero_le _) (.nil p (x ++ s))
  have hkind : (fun before => begins' (a ++ (x ++ before))) = fun before => begins (a ++ before) :=
    funext hsame
  rw [findAll, hwalk, findFrom_of_clear hclear (Nat.zero_le _), firstWhere_map_behind, hkind,
    Option.map_map]
  congr 1
  funext m
  exact congrArg (Match.mk · m.matched m.after) (List.append_assoc ..).symm

end Pattern

end AndroidFonts
