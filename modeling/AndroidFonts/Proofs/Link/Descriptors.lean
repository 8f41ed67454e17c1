/-
# `AndroidFonts.Proofs.Link.Descriptors` — what linking a family leaves of its descriptor

A family is linked by one edit, which adds its files to the descriptor that is there, or to the empty
one.  Once the edit was made the file reads as that descriptor with the files merged in
(`descriptor_of_apply`): the fonts of other styles and weights are those from before, in the order
they had, and planning the family again finds nothing to do.

Two things carry this.  What is written is read back, since texts that attribute values keep are
written and the rest of what was read is sound (`Descriptor.sound_of_ofXml`).  And the path of the
family is accepted for the same place as before, whatever links there are
(`Guard.validate_of_apply`).
-/
import AndroidFonts.Proofs.Descriptor.Soundness
import AndroidFonts.Proofs.Link.Steps
import AndroidFonts.Proofs.Project.Renewal

namespace AndroidFonts

open FileTree FileEdit

namespace FileEdit

variable {t t' : FileTree} {e : FileEdit} {r : Location} {o : EditOutcome}

/-- An edit that was made had nothing to do, or put a file in. -/
theorem apply_eq_ok (h : e.apply t = (.ok o, t')) :
    (t' = t ∧ t.readText e.file = .ok e.after) ∨ e.install t = (.ok o, t') := by
  rcases e.apply_cases t with ⟨cause, herror⟩ | ⟨hdone, hcurrent⟩ | ⟨hinstall, -⟩
  · rw [herror] at h
    nomatch h
  · rw [hdone] at h
    exact .inl ⟨(Prod.mk.inj h).2.symm, currentText_eq_some_iff.1 hcurrent⟩
  · exact .inr (hinstall.symm.trans h)

end FileEdit

namespace Guard

variable {t t' : FileTree} {g : Guard} {p : Path} {l r : Location} {e : FileEdit} {o : EditOutcome}

theorem ne_nil_of_readText (hread : (∃ s, t.readText r.path = .ok s) ∨
    t.readText r.path = .error .notFound) : r ≠ [] := by
  rintro rfl
  rw [readText, t.locate_path_nil, ok_bind, t.get?_nil] at hread
  rcases hread with ⟨s, hs⟩ | hs
  · cases hs
  · cases hs

/-- Once an edit of an accepted place has been made, the new text is read there, and the path is
accepted for that place again. -/
theorem validate_of_apply (ht : t.IsTree) (hl : l.Named) (hp : g.spelling p = l.path)
    (hr : g.validate t p = .ok r) (he : e.file = r.path)
    (hread : (∃ s, t.readText r.path = .ok s) ∨ t.readText r.path = .error .notFound)
    (h : e.apply t = (.ok o, t')) :
    t'.readText r.path = .ok e.after ∧ g.validate t' p = .ok r := by
  rcases apply_eq_ok h with ⟨rfl, hdone⟩ | hinstall
  · exact ⟨he ▸ hdone, hr⟩
  obtain ⟨d, name, rfl⟩ := (List.eq_nil_or_concat' r).resolve_left (ne_nil_of_readText hread)
  obtain ⟨hres, hcheck⟩ := validate_eq_ok_iff.1 hr
  have hnamed := named_of_resolveFrom hres (isAbsolute_spelling g p)
  obtain ⟨m, u, hinstalled, rfl⟩ := install_eq_ok ht hnamed he hinstall
  refine ⟨hinstalled.readText ht hnamed hread e.after, validate_eq_ok_iff.2 ⟨?_, hcheck⟩⟩
  rw [resolve, hp] at hres ⊢
  exact resolveFrom_of_installed ht hl (length_le_pieces_path hl) hres hread hinstalled

end Guard

namespace Linker

variable {t t' : FileTree} {k : Linker} {f : FontFamily} {e : FileEdit} {o : EditOutcome}

/-- The descriptor that an edit adds to: the one that is there, or the empty one. -/
def Base (e : FileEdit) (d : Descriptor) : Prop :=
  (∃ text, e.before = some text ∧ Descriptor.ofXml text = .ok d) ∨
    e.before = none ∧ d = Descriptor.empty

theorem base_of_descriptorEdit (he : k.descriptorEdit t f = .ok e) :
    ∃ r d, k.guard.validate t (k.descriptorPath f) = .ok r ∧ e.file = r.path ∧
      ((∃ s, t.readText r.path = .ok s) ∨ t.readText r.path = .error .notFound) ∧
      Base e d ∧ e.after = (d.merge f.files).toXml := by
  obtain ⟨r, hr, hfile, ⟨text, d, hread, hd, hbefore, hafter⟩ | ⟨hread, hbefore, hafter⟩⟩ :=
    descriptorEdit_eq_ok he
  · exact ⟨r, d, hr, hfile, .inl ⟨text, hfile ▸ hread⟩, .inl ⟨text, hbefore, hd⟩, hafter⟩
  · exact ⟨r, .empty, hr, hfile, .inr (hfile ▸ hread), .inr ⟨hbefore, rfl⟩, hafter⟩

theorem Base.sound {d : Descriptor} (h : Base e d) :
    d.Sound ∧ d.namespaceUri ≠ Xml.xmlUri ∧ d.namespaceUri ≠ Xml.xmlnsUri := by
  rcases h with ⟨text, -, hd⟩ | ⟨-, rfl⟩
  · exact Descriptor.sound_of_ofXml hd
  · exact ⟨Descriptor.sound_empty, Descriptor.plain_empty.ne_xml, Descriptor.plain_empty.ne_xmlns⟩

/-- Linking a family adds its files to the descriptor that was there and keeps all else; linking it
again has nothing to do. -/
theorem descriptor_of_apply (ht : t.IsTree) (he : k.descriptorEdit t f = .ok e)
    (hfiles : ∀ x ∈ f.files, Xml.Plain (fontResourceRef x.name) ∧ x.weight < Text.shortLimit)
    (hold : ∀ text d, e.before = some text → Descriptor.ofXml text = .ok d →
      Xml.Plain d.namespaceUri ∧ ∀ x ∈ d.entries, Xml.Plain x.fontRef)
    (happly : e.apply t = (.ok o, t')) :
    ∃ old, Base e old ∧
      (∃ text, t'.readText e.file = .ok text ∧
        Descriptor.ofXml text = .ok (old.merge f.files)) ∧
      (∀ x ∈ old.entries, (∀ y ∈ f.files, (FontEntry.ofFile y).key ≠ x.key) →
        x ∈ (old.merge f.files).entries) ∧
      (old.merge f.files).keys.Nodup ∧ old.keys <+: (old.merge f.files).keys ∧
      ∃ again, k.descriptorEdit t' f = .ok again ∧ again.file = e.file ∧ again.isNoop = true := by
  obtain ⟨r, old, hr, hfile, hread, hbase, hafter⟩ := base_of_descriptorEdit he
  obtain ⟨hsound, hxml, hxmlns⟩ := hbase.sound
  have hplain : old.Plain := by
    rcases hbase with ⟨text, hbefore, hd⟩ | ⟨-, rfl⟩
    · obtain ⟨huri, hrefs⟩ := hold text old hbefore hd
      exact ⟨huri, hxml, hxmlns, hrefs⟩
    · exact Descriptor.plain_empty
  have hroot : k.guard.root.Named := by
    obtain ⟨hnamed, hcheck⟩ := Guard.named_of_validate hr
    exact hnamed.above (Guard.check_eq_ok_iff.1 hcheck).2.1
  obtain ⟨hnew, hagain⟩ := Guard.validate_of_apply ht (named_descriptorPlace hroot)
    (spelling_descriptorPath hroot) hr hfile hread happly
  have hwritten : Descriptor.ofXml e.after = .ok (old.merge f.files) := by
    rw [hafter]
    exact Descriptor.ofXml_toXml (hplain.merge fun x hx => (hfiles x hx).1)
      (hsound.merge fun x hx => (hfiles x hx).2)
  refine ⟨old, hbase, ⟨e.after, hfile ▸ hnew, hwritten⟩,
    fun x hx hne => Descriptor.mem_merge_of_ne hx hne, Descriptor.nodup_keys_merge hsound.nodup,
    Descriptor.keys_prefix_merge old f.files, _, descriptorEdit_of_ok hagain hnew hwritten,
    hfile.symm, ?_⟩
  rw [Descriptor.merge_merge_self hsound.nodup, ← hafter]
  exact decide_eq_true rfl

/-- A descriptor that somebody has written by hand. -/
def handwritten : String :=
  "<font-family xmlns:app='u'>\n<font app:font='r' app:fontStyle='italic' app:fontWeight=' 40 '/>" ++
    "</font-family>"

def handwrittenDescriptor : Descriptor := ⟨"u", [⟨.italic, 40, "r"⟩]⟩

/-- A project whose directory of fonts is a link. -/
def linkedFonts : FileTree where
  nodes := [(["android"], .directory), (["android", "app"], .directory),
    (["android", "app", "src"], .directory), (["android", "app", "src", "main"], .directory),
    (["android", "app", "src", "main", "res"], .directory),
    (["android", "app", "src", "main", "res", "font"], .link ⟨"/android/fonts"⟩),
    (["android", "fonts"], .directory),
    (["android", "fonts", "lato.xml"], .file (.text handwritten))]
  current := []

def heavyLato : FontFamily := ⟨"Lato", none, [⟨"plain.ttf", 900, false⟩, ⟨"a.ttf", 400, false⟩]⟩

/-- What linking `heavyLato` into `linkedFonts` changes. -/
def heavyLatoEdit : FileEdit where
  file := Location.path ["android", "fonts", "lato.xml"]
  before := some handwritten
  after := (handwrittenDescriptor.merge heavyLato.files).toXml

theorem descriptor_of_apply_linked : ∃ e o t',
    (Linker.mk ⟨["android"]⟩ .java).descriptorEdit linkedFonts heavyLato = .ok e ∧
    e.apply linkedFonts = (.ok o, t') ∧
    (∃ text, t'.readText e.file = .ok text ∧ Descriptor.ofXml text = .ok ⟨"u",
      [⟨.italic, 40, "r"⟩, ⟨.normal, 900, "@font/plain"⟩, ⟨.normal, 400, "@font/a"⟩]⟩) ∧
    ∃ again, (Linker.mk ⟨["android"]⟩ .java).descriptorEdit t' heavyLato = .ok again ∧
      again.file = e.file ∧ again.isNoop = true := by
  have htree : linkedFonts.IsTree := .of_nodes (by decide +kernel)
  have hread : linkedFonts.readText ⟨"/android/fonts/lato.xml"⟩ = .ok handwritten := by
    decide +kernel
  have hold : Descriptor.ofXml handwritten = .ok handwrittenDescriptor := by decide +kernel
  have hedit : (Linker.mk ⟨["android"]⟩ .java).descriptorEdit linkedFonts heavyLato =
      .ok heavyLatoEdit :=
    descriptorEdit_of_ok (r := ["android", "fonts", "lato.xml"]) (by decide +kernel) hread hold
  obtain ⟨o, t', happly⟩ := fst_ok_of_isSome (x := heavyLatoEdit.apply linkedFonts)
    (by decide +kernel)
  obtain ⟨old, hbase, ⟨text, hread', htext⟩, -, -, -, again, hagain, hfile, hnoop⟩ :=
    descriptor_of_apply htree hedit (by decide +kernel) (fun s d hs hd => by
      cases Option.some.inj hs
      cases Except.ok.inj (hold.symm.trans hd)
      decide +kernel) happly
  obtain rfl : old = handwrittenDescriptor := by
    rcases hbase with ⟨s, hs, hd⟩ | ⟨hnone, -⟩
    · cases Option.some.inj hs
      exact Except.ok.inj (hd.symm.trans hold)
    · nomatch hnone
  refine ⟨heavyLatoEdit, o, t', hedit, happly, ⟨text, hread', htext.trans ?_⟩, again, hagain, hfile, hnoop⟩
  decide +kernel

end Linker

end AndroidFonts
