/-
# `AndroidFonts.Proofs.Descriptor.Order` — the order and the contents of a merged descriptor

A merge follows two rules that pull in opposite directions: a key has the place of its *first*
occurrence, a font that of its *last*.  The places are a matter of keys alone (`keys_merge`): the old
ones stay, and the ones that the files bring follow in the order in which the files first name them
(`freshKeys`).  The contents are a matter of lookup (`fontAt?_merge`), read here as membership
(`mem_entries_merge_iff`): what a merged descriptor lists is the last file of each key, and the old
fonts that no file replaces.  A descriptor with distinct keys is given by the two
(`merge_ordered`).
-/
import Mathlib.Data.List.Nodup
import AndroidFonts.Proofs.Descriptor.Merge

namespace AndroidFonts

namespace Descriptor

variable {d : Descriptor} {e x : FontEntry} {k : FontStyle × Nat} {f : FontFile}
  {files : List FontFile} {old : List (FontStyle × Nat)}

/-! ## Places -/

/-- The keys of some files, in order and with repetitions. -/
def fileKeys (files : List FontFile) : List (FontStyle × Nat) :=
  files.map fun f => (FontEntry.ofFile f).key

/-- The keys of some files that are not among some old ones, in the order of their first
occurrences. -/
def freshKeys (old : List (FontStyle × Nat)) (files : List FontFile) : List (FontStyle × Nat) :=
  ((fileKeys files).filter (· ∉ old)).eraseDups

theorem freshKeys_cons_of_mem (h : (FontEntry.ofFile f).key ∈ old) :
    freshKeys old (f :: files) = freshKeys old files := by
  have hfilter : (fileKeys (f :: files)).filter (· ∉ old) = (fileKeys files).filter (· ∉ old) :=
    List.filter_cons_of_neg (by simpa using h)
  rw [freshKeys, hfilter, freshKeys]

theorem freshKeys_cons_of_not_mem (h : (FontEntry.ofFile f).key ∉ old) :
    freshKeys old (f :: files) =
      (FontEntry.ofFile f).key :: freshKeys (old ++ [(FontEntry.ofFile f).key]) files := by
  have hfilter : (fileKeys (f :: files)).filter (· ∉ old) =
      (FontEntry.ofFile f).key :: (fileKeys files).filter (· ∉ old) :=
    List.filter_cons_of_pos (by simpa using h)
  rw [freshKeys, hfilter, List.eraseDups_cons, List.filter_filter, freshKeys]
  -- a later key counts if it is neither the first one nor an old one
  congr 2
  refine List.filter_congr fun k _ => ?_
  rw [Bool.eq_iff_iff]
  simp [and_comm]

/-- A merge keeps the old keys in place and appends the others in the order of their first
occurrences. -/
theorem keys_merge (d : Descriptor) (files : List FontFile) :
    (d.merge files).keys = d.keys ++ freshKeys d.keys files := by
  induction files generalizing d with
  | nil => exact (List.append_nil _).symm
  | cons f files ih =>
    rw [merge_cons, ih, keys_upsert]
    split
    · rw [freshKeys_cons_of_mem ‹_›]
    · rw [freshKeys_cons_of_not_mem ‹_›, List.append_assoc, List.singleton_append]

theorem keys_build (files : List FontFile) : (build files).keys = (fileKeys files).eraseDups := by
  have hall : (fileKeys files).filter (· ∉ empty.keys) = fileKeys files :=
    List.filter_eq_self.2 fun k _ => decide_eq_true (nomatch ·)
  rw [build, keys_merge, freshKeys, hall]
  rfl

/-! ## Contents -/

/-- `e` is the font of the last of some files with its key. -/
def LastOf (files : List FontFile) (e : FontEntry) : Prop :=
  ∃ before f after, files = before ++ f :: after ∧ e = .ofFile f ∧ e.key ∉ fileKeys after

theorem last?_eq_some_iff : last? files k = some e ↔ e.key = k ∧ LastOf files e := by
  have hkeys (es : List FontFile) : k ∉ fileKeys es ↔
      ∀ a ∈ (es.map FontEntry.ofFile).reverse, (!decide (a.key = k)) = true := by
    simp [fileKeys]
  rw [last?, find?, List.find?_eq_some_iff_append, decide_eq_true_iff]
  refine and_congr_right fun hkey => ?_
  subst hkey
  constructor
  · rintro ⟨as, bs, hsplit, hnone⟩
    have hsplit : files.map FontEntry.ofFile = bs.reverse ++ e :: as.reverse := by
      rw [← List.reverse_reverse (files.map _), hsplit]
      simp
    obtain ⟨before, rest, rfl, -, hrest⟩ := List.map_eq_append_iff.1 hsplit
    obtain ⟨f, after, rfl, rfl, hafter⟩ := List.map_eq_cons_iff.1 hrest
    refine ⟨before, f, after, rfl, rfl, (hkeys after).2 ?_⟩
    rwa [hafter, List.reverse_reverse]
  · rintro ⟨before, f, after, rfl, rfl, hnone⟩
    refine ⟨_, (before.map FontEntry.ofFile).reverse, ?_, (hkeys after).1 hnone⟩
    simp

theorem last?_eq_none_iff : last? files k = none ↔ k ∉ fileKeys files := by
  simp [last?, find?, fileKeys]

theorem mem_entries_iff (h : d.keys.Nodup) : e ∈ d.entries ↔ d.fontAt? e.key = some e := by
  constructor
  · intro hmem
    -- the first font with the key is the only one
    cases hfind : d.fontAt? e.key with
    | none => exact absurd (decide_eq_true rfl) (List.find?_eq_none.1 hfind e hmem)
    | some x =>
      have hx : x ∈ d.entries := List.mem_of_find?_eq_some hfind
      rw [List.inj_on_of_nodup_map h hx hmem (key_of_find? hfind)]
  · exact List.mem_of_find?_eq_some

/-- A merged descriptor lists the last file of each key and the old fonts that no file replaces. -/
theorem mem_entries_merge_iff (h : d.keys.Nodup) :
    e ∈ (d.merge files).entries ↔
      LastOf files e ∨ e ∈ d.entries ∧ e.key ∉ fileKeys files := by
  rw [mem_entries_iff (nodup_keys_merge h), fontAt?_merge, mem_entries_iff h,
    ← last?_eq_none_iff, Option.or_eq_some_iff, last?_eq_some_iff]
  exact or_congr (and_iff_right rfl) and_comm

/-- A merge keeps the keys of a descriptor distinct and in order, and the last writer of a key
wins. -/
theorem merge_ordered (h : d.keys.Nodup) (files : List FontFile) :
    (d.merge files).keys = d.keys ++ freshKeys d.keys files ∧
      (d.merge files).keys.Nodup ∧
      (∀ e, e ∈ (d.merge files).entries ↔
        LastOf files e ∨ e ∈ d.entries ∧ e.key ∉ fileKeys files) ∧
      (d.merge files).namespaceUri = d.namespaceUri ∧
      (d.merge files).merge files = d.merge files ∧
      build files = merge ⟨resAutoUri, []⟩ files ∧
      (build files).keys = (fileKeys files).eraseDups ∧
      ∀ e, e ∈ (build files).entries ↔ LastOf files e := by
  have hempty : empty.keys.Nodup := List.nodup_nil
  refine ⟨keys_merge d files, nodup_keys_merge h, fun e => mem_entries_merge_iff h,
    namespaceUri_merge d files, merge_merge_self h, rfl, keys_build files, fun e => ?_⟩
  have hbuild : e ∈ (empty.merge files).entries ↔
      LastOf files e ∨ e ∈ empty.entries ∧ e.key ∉ fileKeys files :=
    mem_entries_merge_iff hempty
  exact hbuild.trans (or_iff_left fun hold => nomatch hold.1)

/-- A bold file named twice, with a replaced font and one that stays: the bold font is last in order
and the second of the two. -/
theorem merge_ordered_of_repeated :
    let d : Descriptor := ⟨resAutoUri, [⟨.normal, 400, "@font/old"⟩, ⟨.italic, 400, "@font/slanted"⟩]⟩
    let files : List FontFile :=
      [⟨"first_bold", 700, false⟩, ⟨"regular", 400, false⟩, ⟨"second_bold", 700, false⟩]
    d.keys.Nodup ∧
      (d.merge files).keys = [(.normal, 400), (.italic, 400), (.normal, 700)] ∧
      (d.merge files).merge files = d.merge files ∧
      (⟨.normal, 700, "@font/second_bold"⟩ : FontEntry) ∈ (d.merge files).entries := by
  intro d files
  have hnodup : d.keys.Nodup := by decide +kernel
  obtain ⟨hkeys, -, hmem, -, hagain, -⟩ := merge_ordered hnodup files
  refine ⟨hnodup, hkeys.trans (by decide +kernel), hagain, (hmem _).2 (.inl ?_)⟩
  exact ⟨files.take 2, ⟨"second_bold", 700, false⟩, [], rfl, by decide +kernel, nofun⟩

end Descriptor

end AndroidFonts
