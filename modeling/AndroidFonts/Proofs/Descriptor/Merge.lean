/-
# `AndroidFonts.Proofs.Descriptor.Merge` — what a merge leaves for each key

The fonts of a descriptor are told apart by their keys, so a descriptor with distinct keys is given
by the order of its keys and by what it holds for each (`Descriptor.ext_fontAt?`).  A merge leaves
the last of the files for a key, and for a key that no file has what was there
(`fontAt?_merge`).  Hence merging files changes nothing if and only if the descriptor holds what they
leave (`merge_eq_self_iff`), merging them twice is merging them once, and a descriptor that has
taken in some files still has them after a merge of files that agree with them.
-/
import AndroidFonts.Descriptor.Basic

namespace AndroidFonts

namespace Descriptor

variable {d : Descriptor} {e x : FontEntry} {es : List FontEntry} {k : FontStyle × Nat}
  {files more : List FontFile}

/-! ## Keys -/

/-- The keys of the fonts in a list. -/
def keysOf (es : List FontEntry) : List (FontStyle × Nat) := es.map FontEntry.key

/-- The keys of a descriptor, in order. -/
def keys (d : Descriptor) : List (FontStyle × Nat) := keysOf d.entries

theorem keysOf_place (e : FontEntry) (es : List FontEntry) :
    keysOf (place e es) = if e.key ∈ keysOf es then keysOf es else keysOf es ++ [e.key] := by
  induction es with
  | nil => rfl
  | cons x xs ih =>
    show keysOf (if x.key = e.key then e :: xs else x :: place e xs) =
      if e.key ∈ x.key :: keysOf xs then x.key :: keysOf xs else x.key :: keysOf xs ++ [e.key]
    split
    · rename_i heq
      rw [if_pos (List.mem_cons.2 (.inl heq.symm)), heq]
      rfl
    · rename_i hne
      show x.key :: keysOf (place e xs) = _
      rw [ih]
      by_cases hmem : e.key ∈ keysOf xs
      · rw [if_pos hmem, if_pos (List.mem_cons_of_mem _ hmem)]
      · have hnot : e.key ∉ x.key :: keysOf xs := by
          intro h
          rcases List.mem_cons.1 h with h | h
          · exact hne h.symm
          · exact hmem h
        rw [if_neg hmem, if_neg hnot]
        rfl

theorem keys_upsert (d : Descriptor) (e : FontEntry) :
    (d.upsert e).keys = if e.key ∈ d.keys then d.keys else d.keys ++ [e.key] :=
  keysOf_place e d.entries

theorem nodup_keys_upsert (h : d.keys.Nodup) : (d.upsert e).keys.Nodup := by
  rw [keys_upsert]
  split
  · exact h
  · rename_i hnot
    exact List.nodup_append.2 ⟨h, by simp, fun a ha b hb => by
      rw [List.mem_singleton.1 hb]
      exact fun heq => hnot (heq ▸ ha)⟩

theorem merge_cons (d : Descriptor) (f : FontFile) (files : List FontFile) :
    d.merge (f :: files) = (d.upsert (.ofFile f)).merge files := rfl

theorem nodup_keys_merge (h : d.keys.Nodup) : (d.merge files).keys.Nodup := by
  induction files generalizing d with
  | nil => exact h
  | cons f files ih => exact ih (nodup_keys_upsert h)

theorem namespaceUri_merge (d : Descriptor) (files : List FontFile) :
    (d.merge files).namespaceUri = d.namespaceUri := by
  induction files generalizing d with
  | nil => rfl
  | cons f files ih => exact ih (d.upsert (.ofFile f))

theorem mem_place (h : x ∈ place e es) : x = e ∨ x ∈ es := by
  induction es with
  | nil => exact .inl (List.mem_singleton.1 h)
  | cons y ys ih =>
    rw [place] at h
    split at h
    · rcases List.mem_cons.1 h with h | h
      · exact .inl h
      · exact .inr (List.mem_cons_of_mem _ h)
    · rcases List.mem_cons.1 h with h | h
      · exact .inr (h ▸ List.mem_cons_self)
      · exact (ih h).imp_right (List.mem_cons_of_mem _)

theorem mem_merge (h : e ∈ (d.merge files).entries) :
    e ∈ d.entries ∨ ∃ f ∈ files, e = .ofFile f := by
  induction files generalizing d with
  | nil => exact .inl h
  | cons f files ih =>
    rcases ih h with h | ⟨g, hg, h⟩
    · rcases mem_place h with h | h
      · exact .inr ⟨f, List.mem_cons_self, h⟩
      · exact .inl h
    · exact .inr ⟨g, List.mem_cons_of_mem _ hg, h⟩

/-- A merge adds keys at the end. -/
theorem keys_prefix_merge (d : Descriptor) (files : List FontFile) :
    d.keys <+: (d.merge files).keys := by
  induction files generalizing d with
  | nil => exact List.prefix_rfl
  | cons f files ih =>
    refine List.IsPrefix.trans ?_ (ih (d.upsert (.ofFile f)))
    rw [keys_upsert]
    split
    · exact List.prefix_rfl
    · exact List.prefix_append _ _

theorem mem_place_of_ne (h : x ∈ es) (hne : x.key ≠ e.key) : x ∈ place e es := by
  induction es with
  | nil => nomatch h
  | cons y es ih =>
    rw [place]
    split
    · rename_i heq
      rcases List.mem_cons.1 h with rfl | h
      · exact absurd heq hne
      · exact List.mem_cons_of_mem _ h
    · rcases List.mem_cons.1 h with rfl | h
      · exact List.mem_cons_self
      · exact List.mem_cons_of_mem _ (ih h)

/-- A font with a key that no file has stays. -/
theorem mem_merge_of_ne (h : x ∈ d.entries)
    (hne : ∀ f ∈ files, (FontEntry.ofFile f).key ≠ x.key) : x ∈ (d.merge files).entries := by
  induction files generalizing d with
  | nil => exact h
  | cons f files ih =>
    exact ih (mem_place_of_ne h (hne f List.mem_cons_self).symm)
      fun g hg => hne g (List.mem_cons_of_mem _ hg)

/-! ## Lookup by key -/

/-- The first of some fonts with a key. -/
def find? (k : FontStyle × Nat) (es : List FontEntry) : Option FontEntry :=
  es.find? fun e => e.key = k

/-- What a descriptor holds for a key. -/
def fontAt? (d : Descriptor) (k : FontStyle × Nat) : Option FontEntry := find? k d.entries

theorem find?_cons_of_eq (h : e.key = k) : find? k (e :: es) = some e :=
  List.find?_cons_of_pos (decide_eq_true h)

theorem find?_cons_of_ne (h : e.key ≠ k) : find? k (e :: es) = find? k es :=
  List.find?_cons_of_neg fun heq => h (of_decide_eq_true heq)

theorem key_of_find? (h : find? k es = some e) : e.key = k := by
  have hkey := List.find?_some h
  exact of_decide_eq_true hkey

theorem mem_keysOf_of_find? (h : find? k es = some e) : k ∈ keysOf es :=
  List.mem_map.2 ⟨e, List.mem_of_find?_eq_some h, key_of_find? h⟩

theorem find?_place (e : FontEntry) (es : List FontEntry) (k : FontStyle × Nat) :
    find? k (place e es) = if e.key = k then some e else find? k es := by
  induction es with
  | nil =>
    rw [place]
    split
    · exact find?_cons_of_eq ‹_›
    · exact find?_cons_of_ne ‹_›
  | cons x xs ih =>
    rw [place]
    by_cases hx : x.key = e.key
    · rw [if_pos hx]
      split
      · exact find?_cons_of_eq ‹_›
      · rename_i hne
        rw [find?_cons_of_ne hne, find?_cons_of_ne (hx ▸ hne)]
    · rw [if_neg hx]
      by_cases hk : x.key = k
      · rw [find?_cons_of_eq hk, if_neg (fun heq => hx (hk.trans heq.symm)), find?_cons_of_eq hk]
      · rw [find?_cons_of_ne hk, ih, find?_cons_of_ne hk]

/-- The font that merging some files leaves for a key, if they have one: the last of them. -/
def last? (files : List FontFile) (k : FontStyle × Nat) : Option FontEntry :=
  find? k (files.map FontEntry.ofFile).reverse

theorem last?_cons (f : FontFile) (files : List FontFile) (k : FontStyle × Nat) :
    last? (f :: files) k = (last? files k).or (find? k [.ofFile f]) := by
  rw [last?, List.map_cons, List.reverse_cons, find?, List.find?_append]
  rfl

theorem fontAt?_merge (d : Descriptor) (files : List FontFile) (k : FontStyle × Nat) :
    (d.merge files).fontAt? k = (last? files k).or (d.fontAt? k) := by
  induction files generalizing d with
  | nil => rfl
  | cons f files ih =>
    have hhead : (d.upsert (.ofFile f)).fontAt? k = (find? k [.ofFile f]).or (d.fontAt? k) := by
      show find? k (place _ d.entries) = _
      rw [find?_place]
      split
      · rw [find?_cons_of_eq ‹_›]
        rfl
      · rw [find?_cons_of_ne ‹_›]
        rfl
    rw [merge_cons, ih, hhead, last?_cons, Option.or_assoc]

/-- Fonts with distinct keys are given by the keys in order and by what they are for each. -/
theorem eq_of_find?_eq {es es' : List FontEntry} (h : (keysOf es).Nodup)
    (hkeys : keysOf es' = keysOf es) (hfind : ∀ k ∈ keysOf es, find? k es' = find? k es) :
    es' = es := by
  induction es generalizing es' with
  | nil => exact List.map_eq_nil_iff.1 hkeys
  | cons x xs ih =>
    cases es' with
    | nil => nomatch hkeys
    | cons y ys =>
      obtain ⟨hkey, hkeys⟩ := List.cons.inj hkeys
      obtain ⟨hx, hxs⟩ := List.nodup_cons.1 h
      have hhead := hfind x.key List.mem_cons_self
      rw [find?_cons_of_eq hkey, find?_cons_of_eq rfl] at hhead
      have htail : ys = xs := by
        refine ih hxs hkeys fun k hk => ?_
        have hne : x.key ≠ k := fun heq => hx (heq ▸ hk)
        have hrest := hfind k (List.mem_cons_of_mem _ hk)
        rwa [find?_cons_of_ne (hkey ▸ hne), find?_cons_of_ne hne] at hrest
      rw [Option.some.inj hhead, htail]

theorem ext_fontAt? {d d' : Descriptor} (h : d.keys.Nodup)
    (huri : d'.namespaceUri = d.namespaceUri) (hkeys : d'.keys = d.keys)
    (hentry : ∀ k ∈ d.keys, d'.fontAt? k = d.fontAt? k) : d' = d := by
  cases d with
  | mk uri es =>
    cases d' with
    | mk uri' es' =>
      obtain rfl : uri' = uri := huri
      obtain rfl : es' = es := eq_of_find?_eq h hkeys hentry
      rfl

/-! ## Merging again -/

theorem keys_merge_of_subset (h : ∀ f ∈ files, (FontEntry.ofFile f).key ∈ d.keys) :
    (d.merge files).keys = d.keys := by
  induction files generalizing d with
  | nil => rfl
  | cons f files ih =>
    have hhead : (d.upsert (.ofFile f)).keys = d.keys := by
      rw [keys_upsert, if_pos (h f List.mem_cons_self)]
    rw [merge_cons, ih, hhead]
    intro g hg
    rw [hhead]
    exact h g (List.mem_cons_of_mem _ hg)

theorem exists_last? {f : FontFile} (h : f ∈ files) :
    ∃ e, last? files (FontEntry.ofFile f).key = some e := by
  refine Option.isSome_iff_exists.1 (List.find?_isSome.2 ⟨.ofFile f, ?_, decide_eq_true rfl⟩)
  exact List.mem_reverse.2 (List.mem_map.2 ⟨f, h, rfl⟩)

/-- Merging files changes nothing exactly when the descriptor holds what they leave. -/
theorem merge_eq_self_iff (h : d.keys.Nodup) :
    d.merge files = d ↔ ∀ k e, last? files k = some e → d.fontAt? k = some e := by
  constructor
  · intro heq k e hlast
    rw [← heq, fontAt?_merge, hlast]
    rfl
  · intro hholds
    refine ext_fontAt? h (namespaceUri_merge d files) (keys_merge_of_subset fun f hf => ?_) ?_
    · obtain ⟨e, he⟩ := exists_last? hf
      exact mem_keysOf_of_find? (hholds _ e he)
    · intro k _
      rw [fontAt?_merge]
      cases hlast : last? files k with
      | none => rfl
      | some e => exact (hholds k e hlast).symm

/-- Merging files twice is merging them once. -/
theorem merge_merge_self (h : d.keys.Nodup) : (d.merge files).merge files = d.merge files := by
  refine (merge_eq_self_iff (nodup_keys_merge h)).2 fun k e hlast => ?_
  rw [fontAt?_merge, hlast]
  rfl

/-- Files that leave the same font for every key that both have. -/
def Agree (files more : List FontFile) : Prop :=
  ∀ k e e', last? files k = some e → last? more k = some e' → e = e'

theorem Agree.symm (h : Agree files more) : Agree more files :=
  fun k e e' he he' => (h k e' e he' he).symm

/-- A descriptor keeps files it has taken in when it takes in others that agree with them. -/
theorem merge_merge_of_agree (h : d.keys.Nodup) (hfiles : d.merge files = d)
    (hagree : Agree files more) : (d.merge more).merge files = d.merge more := by
  refine (merge_eq_self_iff (nodup_keys_merge h)).2 fun k e hlast => ?_
  rw [fontAt?_merge]
  cases hmore : last? more k with
  | none => exact (merge_eq_self_iff h).1 hfiles k e hlast
  | some e' =>
    rw [hagree k e e' hlast hmore]
    rfl

end Descriptor

end AndroidFonts
