/-
# `AndroidFonts.Proofs.Descriptor.Soundness` — what every descriptor that is read is like

A descriptor that is read has distinct keys, since an entry takes the place of an earlier one with
its key; its weights fit 16 bits; and its namespace is none of the two that nothing can be bound to,
since the reader refuses such a binding wherever it stands (`sound_of_ofXml`).  So what is read can
be written and read again, but for the characters that attribute values do not keep.
-/
import AndroidFonts.Proofs.Descriptor.RoundTrip

namespace AndroidFonts

open Text

namespace Descriptor

variable {d d' : Descriptor} {e : FontEntry} {uri : String} {i : Nat} {element : Xml.Element}

/-! ## Entries -/

/-- A weight that is read is a number of 16 bits. -/
theorem weight_of_readEntry (h : readEntry uri i element = .ok e) : e.weight < shortLimit := by
  unfold readEntry at h
  cases hstyle : element.attribute? uri "fontStyle" with
  | none =>
    simp only [hstyle] at h
    nomatch h
  | some style =>
    simp only [hstyle] at h
    cases hname : FontStyle.ofName? (String.ofList (Unicode.trim style.toList)) with
    | none =>
      simp only [bind, Except.bind, hname] at h
      nomatch h
    | some style' =>
      cases hweight : element.attribute? uri "fontWeight" with
      | none =>
        simp only [bind, Except.bind, hname, hweight] at h
        nomatch h
      | some weight =>
        cases hvalue : readWeight? weight with
        | none =>
          simp only [bind, Except.bind, hname, hweight, hvalue] at h
          nomatch h
        | some n =>
          cases hfont : element.attribute? uri "font" with
          | none =>
            simp only [bind, Except.bind, hname, hweight, hvalue, hfont] at h
            nomatch h
          | some ref =>
            simp only [bind, Except.bind, hname, hweight, hvalue, hfont] at h
            obtain rfl := Except.ok.inj h
            exact of_decide_eq_true (Option.filter_eq_some_iff.1 hvalue).2

theorem Sound.upsert (h : d.Sound) (he : e.weight < shortLimit) : (d.upsert e).Sound := by
  refine ⟨nodup_keys_upsert h.nodup, fun x hx => ?_⟩
  rcases mem_place hx with rfl | hx
  · exact he
  · exact h.weights x hx

theorem Sound.of_readEntries {elements : List Xml.Element} (h : d.Sound)
    (hread : d.readEntries i elements = .ok d') :
    d'.Sound ∧ d'.namespaceUri = d.namespaceUri := by
  induction elements generalizing d i with
  | nil =>
    rw [readEntries] at hread
    obtain rfl := Except.ok.inj hread
    exact ⟨h, rfl⟩
  | cons element elements ih =>
    rw [readEntries] at hread
    cases he : readEntry d.namespaceUri i element with
    | error cause =>
      rw [he] at hread
      cases hread
    | ok e =>
      rw [he] at hread
      exact ih (d := d.upsert e) (h.upsert (weight_of_readEntry he)) hread

end Descriptor

namespace Xml

/-- Bindings to none of the two namespaces that nothing is bound to. -/
def Scope.Free (scope : Scope) : Prop := ∀ b ∈ scope, b.2 ≠ xmlUri ∧ b.2 ≠ xmlnsUri

theorem Scope.Free.append {inner outer : Scope} (h : inner.Free) (h' : outer.Free) :
    Scope.Free (inner ++ outer) := by
  intro b hb
  rcases List.mem_append.1 hb with hb | hb
  · exact h b hb
  · exact h' b hb

theorem free_of_bindings? {raw : List RawAttribute} {scope : Scope}
    (h : bindings? raw = some scope) : scope.Free := by
  induction raw generalizing scope with
  | nil =>
    obtain rfl := Option.some.inj h
    nofun
  | cons a raw ih =>
    rw [bindings?] at h
    cases hrest : bindings? raw with
    | none =>
      rw [hrest] at h
      nomatch h
    | some rest =>
      have hfree := ih hrest
      rw [hrest] at h
      simp only [bind, Option.bind] at h
      split at h
      · split at h
        · nomatch h
        · split at h
          · split at h
            · exact Option.some.inj h ▸ hfree
            · nomatch h
          · split at h
            · nomatch h
            · obtain rfl := Option.some.inj h
              intro b hb
              rcases List.mem_cons.1 hb with rfl | hb
              · exact ⟨‹_›, ‹_›⟩
              · exact hfree b hb
      · split at h
        · split at h
          · nomatch h
          · exact Option.some.inj h ▸ hfree
        · exact Option.some.inj h ▸ hfree

theorem free_of_open? {outer : Scope} {name : Name} {raw : List RawAttribute} {element : Element}
    (houter : outer.Free) (h : Element.open? outer name raw = some element) :
    element.scope.Free := by
  unfold Element.open? at h
  cases hown : bindings? raw with
  | none =>
    rw [hown] at h
    nomatch h
  | some own =>
    rw [hown] at h
    cases hattributes : (raw.filter fun a => !a.isDeclaration).mapM (resolve? (own ++ outer)) with
    | none =>
      simp only [bind, Option.bind, hattributes] at h
      nomatch h
    | some attributes =>
      simp only [bind, Option.bind, hattributes] at h
      split at h
      · obtain rfl := Option.some.inj h
        exact (free_of_bindings? hown).append houter
      · nomatch h

/-- All elements that have been opened have free scopes. -/
structure TreeBuilder.Free (b : TreeBuilder) : Prop where
  root : ∀ element, b.root = some element → element.scope.Free
  stack : ∀ o ∈ b.stack, o.element.scope.Free

namespace TreeBuilder

variable {b b' : TreeBuilder} {element : Element}

theorem scope_addChild (o : OpenElement) (child : Element) :
    (o.addChild child).element.scope = o.element.scope := by
  cases o with
  | mk name element => cases element; rfl

theorem scope_close (o : OpenElement) : o.close.scope = o.element.scope := by
  cases o with
  | mk name element => cases element; rfl

theorem Free.place (h : b.Free) (helement : element.scope.Free) (hb : b.place element = some b') :
    b'.Free := by
  unfold TreeBuilder.place at hb
  cases hstack : b.stack with
  | nil =>
    rw [hstack] at hb
    change (if b.root.isSome then none else some (⟨some element, []⟩ : TreeBuilder)) = some b' at hb
    split at hb
    · nomatch hb
    · obtain rfl := Option.some.inj hb
      refine ⟨fun x hx => ?_, fun o ho => ?_⟩
      · obtain rfl := Option.some.inj hx
        exact helement
      · nomatch ho
  | cons o outer =>
    rw [hstack] at hb
    obtain rfl := Option.some.inj hb
    refine ⟨h.root, fun x hx => ?_⟩
    rcases List.mem_cons.1 hx with rfl | hx
    · rw [scope_addChild]
      exact h.stack o (by rw [hstack]; exact List.mem_cons_self)
    · exact h.stack x (by rw [hstack]; exact List.mem_cons_of_mem _ hx)

theorem Free.scope (h : b.Free) : b.scope.Free := by
  unfold TreeBuilder.scope
  cases hstack : b.stack with
  | nil => nofun
  | cons o outer => exact h.stack o (by rw [hstack]; exact List.mem_cons_self)

theorem Free.step {token : Token} (h : b.Free) (hb : b.step token = some b') : b'.Free := by
  cases token with
  | remark => exact Option.some.inj hb ▸ h
  | literal =>
    change (if b.stack.isEmpty then none else some b) = some b' at hb
    split at hb
    · nomatch hb
    · exact Option.some.inj hb ▸ h
  | text raw =>
    change (if b.stack.isEmpty && !raw.all isSpace then none else some b) = some b' at hb
    split at hb
    · nomatch hb
    · exact Option.some.inj hb ▸ h
  | startTag name attributes closed =>
    unfold TreeBuilder.step at hb
    simp only at hb
    split at hb
    · nomatch hb
    · cases hopen : Element.open? b.scope name attributes with
      | none =>
        rw [hopen] at hb
        nomatch hb
      | some element =>
        have hfree := free_of_open? h.scope hopen
        rw [hopen] at hb
        simp only [bind, Option.bind] at hb
        split at hb
        · exact h.place hfree hb
        · obtain rfl := Option.some.inj hb
          refine ⟨h.root, fun o ho => ?_⟩
          rcases List.mem_cons.1 ho with rfl | ho
          · exact hfree
          · exact h.stack o ho
  | endTag name =>
    unfold TreeBuilder.step at hb
    cases hstack : b.stack with
    | nil =>
      simp only [hstack] at hb
      nomatch hb
    | cons o outer =>
      simp only [hstack] at hb
      split at hb
      · refine Free.place (b := { b with stack := outer }) ⟨h.root, fun x hx => ?_⟩ ?_ hb
        · exact h.stack x (by rw [hstack]; exact List.mem_cons_of_mem _ hx)
        · rw [scope_close]
          exact h.stack o (by rw [hstack]; exact List.mem_cons_self)
      · nomatch hb

theorem Free.foldlM {ts : List Token} (h : b.Free)
    (hb : ts.foldlM TreeBuilder.step b = some b') : b'.Free := by
  induction ts generalizing b with
  | nil => exact Option.some.inj hb ▸ h
  | cons token ts ih =>
    rw [List.foldlM_cons] at hb
    cases hstep : b.step token with
    | none =>
      rw [hstep] at hb
      nomatch hb
    | some mid =>
      rw [hstep] at hb
      exact ih (h.step hstep) hb

end TreeBuilder

theorem free_of_parse? {text : String} {element : Element} (h : parse? text = some element) :
    element.scope.Free := by
  unfold parse? at h
  cases htokens : tokens? text.toList with
  | none =>
    rw [htokens] at h
    nomatch h
  | some ts =>
    rw [htokens] at h
    change (List.foldlM TreeBuilder.step _ ts).bind TreeBuilder.finish = some element at h
    cases hfold : ts.foldlM TreeBuilder.step ⟨none, []⟩ with
    | none =>
      rw [hfold] at h
      nomatch h
    | some b =>
      rw [hfold] at h
      have hempty : TreeBuilder.Free ⟨none, []⟩ :=
        ⟨fun _ h => absurd h (Option.some_ne_none _).symm, fun _ h => absurd h List.not_mem_nil⟩
      have hfree : b.Free := hempty.foldlM hfold
      change (if b.stack.isEmpty then b.root else none) = some element at h
      split at h
      · exact hfree.root element h
      · nomatch h

end Xml

namespace Descriptor

/-- A descriptor that is read has distinct keys, weights of 16 bits and a namespace of its own. -/
theorem sound_of_ofXml {d : Descriptor} {text : String} (h : ofXml text = .ok d) :
    d.Sound ∧ d.namespaceUri ≠ Xml.xmlUri ∧ d.namespaceUri ≠ Xml.xmlnsUri := by
  unfold ofXml at h
  cases hparse : Xml.parse? text with
  | none =>
    rw [hparse] at h
    nomatch h
  | some root =>
    rw [hparse] at h
    change ofElement root = .ok d at h
    unfold ofElement at h
    split at h
    · nomatch h
    · obtain ⟨hsound, huri⟩ := Sound.of_readEntries (d := ⟨_, []⟩)
        ⟨List.nodup_nil, nofun⟩ h
      refine ⟨hsound, ?_⟩
      rw [huri]
      cases happ : root.scope.lookup "app" with
      | none => exact ⟨by decide, by decide⟩
      | some uri =>
        obtain ⟨l, r, hscope, -⟩ := List.lookup_eq_some_iff.1 happ
        refine Xml.free_of_parse? hparse ("app", uri) ?_
        rw [hscope]
        simp

end Descriptor

end AndroidFonts
