import MarkupEdit.Proofs.MarkersKept

/-!
Setting an attribute and reading it, setting it again, and taking it away. An accepted edit leaves
a tag as written in which the new item is the first of its name; so all of this holds as soon as
the element is still located at that tag, as it always is for an id without `=`.
-/

namespace MarkupEdit

namespace Edit

variable {text id name value old : Bytes} {tag : OpenTag} {a : Attribute} {encoding : Encoding}

theorem setAttribute_literal (unmarked : name ≠ Marker.attributeName)
    (named : isAttributeName name = true) (located : locateTag? text id = some tag)
    (present : tag.attribute? text name = some a) (literal : a.classify = .literal encoding old) :
    setAttribute text id name value = .ok [a.replaceValue (encoding.format value)] := by
  have found := findTag_eq_ok.2 located
  rw [setAttribute, if_neg unmarked, if_neg (by simp [named]), found]
  simp only [bind, Except.bind, present, literal]
  rfl

theorem removeAttribute_literal (unmarked : name ≠ Marker.attributeName)
    (located : locateTag? text id = some tag) (present : tag.attribute? text name = some a)
    (literal : a.classify = .literal encoding old) :
    removeAttribute text id name = .ok [tag.removeAttribute text a] := by
  have found := findTag_eq_ok.2 located
  rw [removeAttribute, if_neg unmarked, found]
  simp only [bind, Except.bind, present, literal]
  rfl

end Edit

namespace Setting

variable {tag : TagText} {name value id : Bytes} (setting : Setting tag name value) {p s : Bytes}

def written (p : Bytes) : Attribute :=
  let start := (setting.slot.front p ++ setting.gap).length
  ⟨start, name, some ⟨start + name.length + setting.before.length + 1 + setting.after.length,
    setting.encoding.delimit value⟩⟩

theorem attribute?_item :
    setting.item.attribute? (p.length + 1 + tag.name.length +
      (itemsText setting.slot.earlier).length + setting.gap.length) =
      some (setting.written p) := by
  rw [← setting.slot.length_front p, ← List.length_append]
  rfl

theorem attribute?_result :
    (setting.result.reading p.length).attribute? (setting.text p s) name =
      some (setting.written p) := by
  rw [setting.attribute_eq, setting.attribute?_item]

theorem classify_written :
    (setting.written p).classify = .literal setting.encoding value := by
  change AttributeValue.classify (some (setting.encoding.delimit value)) = _
  rw [AttributeValue.classify, setting.verbatim.read]

/-- Setting the value once more writes it where it stands. -/
theorem again (unmarked : name ≠ Marker.attributeName)
    (named : Edit.isAttributeName name = true)
    (located : locateTag? (setting.text p s) id = some (setting.result.reading p.length)) :
    (Edit.setAttribute (setting.text p s) id name value).map (setting.text p s).patch =
      .ok (setting.text p s) := by
  rw [Edit.setAttribute_literal unmarked named located setting.attribute?_result
    setting.classify_written, setting.verbatim.again]
  let front := setting.slot.front p ++ (setting.gap ++ (name ++ (setting.before ++
    Byte.equals :: setting.after)))
  have whole : setting.text p s =
      front ++ (setting.encoding.delimit value ++ setting.slot.back s) := by
    rw [setting.text_eq]
    simp [front, item, Item.text]
  let q := (setting.written p).replaceValue (setting.encoding.delimit value)
  have start : q.start = front.length := by
    simp only [q, front, written, Attribute.replaceValue, List.length_append, List.length_cons]
    omega
  have same : q.apply (setting.text p s) = setting.text p s := by
    rw [whole]
    exact Patch.apply_between start rfl
  exact congrArg Except.ok same

/-- Taking the new item away leads back, if it took the place of none. -/
theorem undone (unmarked : name ≠ Marker.attributeName) (added : setting.slot.old = [])
    (located : locateTag? (setting.text p s) id = some (setting.result.reading p.length)) :
    (Edit.removeAttribute (setting.text p s) id name).map (setting.text p s).patch =
      .ok (p ++ (tag.text ++ s)) := by
  rw [Edit.removeAttribute_literal unmarked located setting.attribute?_result
    setting.classify_written]
  have removal : (setting.result.reading p.length).removeAttribute (setting.text p s)
      (setting.written p) = .removal (setting.slot.front p).length
        ((setting.slot.front p).length + setting.gap.length + setting.item.text.length) := by
    rw [setting.slot.length_front]
    exact TagText.removeAttribute_item rfl setting.attribute?_item
  rw [removal]
  let q := Patch.removal (setting.slot.front p).length
    ((setting.slot.front p).length + setting.gap.length + setting.item.text.length)
  have stop : q.stop = q.start + (setting.gap ++ setting.item.text).length := by
    rw [List.length_append]
    simp only [q, Patch.removal]
    omega
  have back : q.apply (setting.text p s) = p ++ (tag.text ++ s) := by
    rw [setting.text_eq, Patch.apply_between rfl stop, setting.slot.text_eq, added]
    rfl
  exact congrArg Except.ok back

end Setting

/-- What setting an attribute promises: the value is read back, all other attributes are read as
before, the element keeps its place, the same edit changes nothing more, and an attribute that was
not there can be taken away again. -/
structure SetsAttribute (source new id name value : Bytes) : Prop where
  read : ∃ encoding, readAttribute? new id name = some (.literal encoding value)
  others : ∀ other, other ≠ name → readAttribute? new id other = readAttribute? source id other
  located : ∃ before after, locate? source id = some before ∧ locate? new id = some after ∧
    after.start = before.start ∧ after.tag = before.tag ∧ after.selfClosing = before.selfClosing
  again : (Edit.setAttribute new id name value).map new.patch = .ok new
  undone : readAttribute? source id name = none →
    (Edit.removeAttribute new id name).map new.patch = .ok source

theorem Setting.setsAttribute {tag : TagText} {name value id p s : Bytes}
    (setting : Setting tag name value) (unmarked : name ≠ Marker.attributeName)
    (named : Edit.isAttributeName name = true)
    (before : locateTag? (p ++ (tag.text ++ s)) id = some (tag.reading p.length))
    (after : locateTag? (setting.text p s) id = some (setting.result.reading p.length)) :
    SetsAttribute (p ++ (tag.text ++ s)) (setting.text p s) id name value where
  read := by
    refine ⟨setting.encoding, ?_⟩
    rw [text, TagText.readAttribute?_in after, setting.lookup_name]
  others other ne := by
    rw [text, TagText.readAttribute?_in after, TagText.readAttribute?_in before,
      setting.lookup_other ne]
  located := by
    refine ⟨(tag.reading p.length).location (p ++ (tag.text ++ s)),
      (setting.result.reading p.length).location (setting.text p s), ?_, ?_, rfl, rfl, rfl⟩
    · rw [locate?, before, Option.map_some]
    · rw [locate?, after, Option.map_some]
  again := setting.again unmarked named after
  undone absent := by
    rw [TagText.readAttribute?_in before] at absent
    exact setting.undone unmarked (setting.old_eq_nil absent) after

theorem MarkerPlace.lookup_ne_none {tag : TagText} {id : Bytes} (place : MarkerPlace tag id) :
    lookup? tag.items Marker.attributeName ≠ none := fun absent =>
  lookup?_eq_none.1 absent (place.gap, markerItem id) (by simp [place.split]) rfl

/-- A tag that is located at an offset is the one that is written there. -/
theorem LooseTag.Stands.locateTag?_at {tag : LooseTag} (stands : tag.Stands) {p s id : Bytes}
    (stays : (locateTag? (p ++ (tag.text ++ s)) id).map (·.start) = some p.length) :
    locateTag? (p ++ (tag.text ++ s)) id = some (tag.reading p.length) := by
  rw [locateTag?_of_start stays, stands.openTag?_in]

theorem TagText.locateTag?_at {tag : TagText} {p s id : Bytes}
    (h : (locateTag? (p ++ (tag.text ++ s)) id).map (·.start) = some p.length) :
    locateTag? (p ++ (tag.text ++ s)) id = some (tag.reading p.length) := by
  exact tag.stands_loose.locateTag?_at h

theorem SetsAttribute.start_eq {source new id name value : Bytes} {tag : OpenTag}
    (sets : SetsAttribute source new id name value) (before : locateTag? source id = some tag) :
    (locateTag? new id).map (·.start) = some tag.start := by
  obtain ⟨old, loc, here, there, start, -⟩ := sets.located
  rw [locate?, before] at here
  obtain ⟨found, located, rfl⟩ := Option.map_eq_some_iff.1 there
  cases here
  rw [located]
  exact congrArg some start

/-- Let a tag without spread blocks carry a marker that stands in the text once, with no `<`
between its own and the marker, and let an attribute of it be set to a value that no encoding
escapes. Where the id holds no `=`, this edit sets the attribute in every respect. For any other
id it does so exactly when the element is still located where it was. -/
theorem setAttribute_roundTrip {tag : TagText} {id : Bytes} (place : MarkerPlace tag id)
    (clear : Byte.less ∉ place.lead) (plain : tag.Plain) (p s : Bytes)
    (once : Bytes.times (Marker.ofId id) (p ++ (tag.text ++ s)) = 1) {name value new : Bytes}
    (harmless : Encoding.Harmless value)
    (edited : (Edit.setAttribute (p ++ (tag.text ++ s)) id name value).map
      (p ++ (tag.text ++ s)).patch = .ok new) :
    (Byte.equals ∉ id → SetsAttribute (p ++ (tag.text ++ s)) new id name value) ∧
      (SetsAttribute (p ++ (tag.text ++ s)) new id name value ↔
        (locateTag? new id).map (·.start) = some p.length) := by
  have before := locateTag?_markerPlace place clear p s once
  obtain ⟨patches, planned, rfl⟩ := map_eq_ok.1 edited
  obtain ⟨unmarked, named, setting, text⟩ :=
    Edit.setAttribute_setting harmless before place.lookup_ne_none planned
  rw [text]
  have sets := setting.setsAttribute unmarked named before
  refine ⟨fun noEquals => ?_, fun h => h.start_eq before, fun h => sets (TagText.locateTag?_at h)⟩
  exact sets (setting.locate_result harmless unmarked plain clear noEquals once)

theorem title_set_and_undone :
    let source := utf8 "<q '" ++ (markedParagraph.text ++ utf8 "</q>")
    let new := utf8 "<q '<p data-eid=\"a\" title=\"b>\x7b=/> c\"></q>"
    Byte.less ∉ paragraphPlace.lead ∧ markedParagraph.Plain ∧
      Bytes.times (Marker.ofId (utf8 "a")) source = 1 ∧
      Encoding.Harmless (utf8 "b>\x7b=/> c") ∧
      (Edit.setAttribute source (utf8 "a") (utf8 "title") (utf8 "b>\x7b=/> c")).map source.patch =
        .ok new ∧
      SetsAttribute source new (utf8 "a") (utf8 "title") (utf8 "b>\x7b=/> c") := by
  intro source new
  have clear : Byte.less ∉ paragraphPlace.lead := by decide
  have plain : markedParagraph.Plain := by decide
  have once : Bytes.times (Marker.ofId (utf8 "a")) source = 1 := by decide +kernel
  have harmless : Encoding.Harmless (utf8 "b>\x7b=/> c") := by decide
  have edited : (Edit.setAttribute source (utf8 "a") (utf8 "title") (utf8 "b>\x7b=/> c")).map
      source.patch = .ok new := by decide +kernel
  exact ⟨clear, plain, once, harmless, edited,
    (setAttribute_roundTrip paragraphPlace clear plain _ _ once harmless edited).1 (by decide)⟩

/-- The items of `<p a=" data-eid=" n data-eid=" n=">`. The end of the first value and the name
behind that lack no more than `="` to make a marker. -/
def nearlyMarkedItems : List SpacedItem :=
  [([Byte.space], .quoted Byte.doubleQuote (utf8 "a") (utf8 " data-eid=")),
    ([Byte.space], .flag (utf8 "n")), ([Byte.space], markerItem (utf8 " n="))]

theorem nearlyMarkedItems_valid : ∀ x ∈ nearlyMarkedItems, SpacedItem.Valid x := by
  have blank : AllBlank [Byte.space] := by decide
  have first : QuotedText Byte.doubleQuote (utf8 " data-eid=") := .ofBytes (by decide)
  have last : QuotedText Byte.doubleQuote (utf8 " n=") := .ofBytes (by decide)
  intro x mem
  simp only [nearlyMarkedItems, List.mem_cons, List.not_mem_nil, or_false] at mem
  obtain rfl | rfl | rfl := mem
  · exact ⟨List.cons_ne_nil _ _, blank, Item.valid_quoted rfl (by decide) first⟩
  · exact ⟨List.cons_ne_nil _ _, blank, show IsItemName (utf8 "n") by decide⟩
  · exact ⟨List.cons_ne_nil _ _, blank, Item.valid_quoted rfl isItemName_attributeName last⟩

def nearlyMarked : TagText where
  name := utf8 "p"
  items := nearlyMarkedItems
  gap := []
  slashed := false
  isName := markedParagraph.isName
  valid := nearlyMarkedItems_valid
  blank := .nil

/-- An id with a `=`. The edit puts `="` behind the name; this makes a second marker, in front of
the old one, and the tag that begins earlier owns it. -/
theorem equals_in_id_relocates :
    let source := utf8 "<q b=\"" ++ (nearlyMarked.text ++ utf8 "\">")
    let new := utf8 "<q b=\"<p a=\" data-eid=\" n=\"v\" data-eid=\" n=\">\">"
    nearlyMarked.Plain ∧ (∀ c ∈ nearlyMarked.text.tail, c ≠ Byte.less ∧ c ≠ Byte.backslash) ∧
      nearlyMarked.Carries (utf8 " n=") ∧
      Bytes.times (Marker.ofId (utf8 " n=")) source = 1 ∧ Encoding.Harmless (utf8 "v") ∧
      (Edit.setAttribute source (utf8 " n=") (utf8 "n") (utf8 "v")).map source.patch = .ok new ∧
      ¬ SetsAttribute source new (utf8 " n=") (utf8 "n") (utf8 "v") := by
  intro source new
  refine ⟨by decide, by decide +kernel, ⟨[Byte.space], ?_⟩, by decide +kernel, by decide,
    by decide +kernel, fun sets => ?_⟩
  · exact List.mem_cons_of_mem _ (List.mem_cons_of_mem _ List.mem_cons_self)
  have before : (locate? source (utf8 " n=")).map (·.start) = some 6 := by decide +kernel
  have after : (locate? new (utf8 " n=")).map (·.start) = some 0 := by decide +kernel
  obtain ⟨old, loc, here, there, start, -⟩ := sets.located
  rw [here, Option.map_some, Option.some.injEq] at before
  rw [there, Option.map_some, Option.some.injEq] at after
  omega

end MarkupEdit
