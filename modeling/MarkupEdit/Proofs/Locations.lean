import MarkupEdit.Proofs.ClosingTags

/-!
What is known of an element that was located in a text of any bytes, by any id. Its opening tag
has an attribute that starts at a marker of the id, so a new attribute is put in behind a marker.
Its content ends at the closing tag that the search came to, which holds the last `</` of the
element. An element replaced by itself leaves the text as it was.
-/

namespace MarkupEdit

namespace OpenTag

variable {text : Bytes} {tag : OpenTag}

/-- An element that is not closed is taken to be no more than its opening tag. -/
theorem location_alone
    (alone : (tag.location text).selfClosing = true ∨ (tag.location text).closed = false) :
    (tag.location text).stop = tag.stop := by
  have selfClosing : (tag.location text).selfClosing = tag.closesItself := rfl
  cases itself : tag.closesItself with
  | true => simp only [location, itself, if_true, Option.getD_some]
  | false =>
      rw [selfClosing, itself] at alone
      have unclosed := alone.resolve_left Bool.false_ne_true
      simp only [location, itself, Bool.false_eq_true, if_false, Option.isSome_eq_false_iff,
        Option.isNone_iff_eq_none] at unclosed
      simp only [location, itself, Bool.false_eq_true, if_false, unclosed, Option.getD_none]

/-- An element with content ends where its closing tag does. -/
theorem location_paired (paired : (tag.location text).selfClosing = false)
    (closed : (tag.location text).closed = true) :
    Units.contentEnd text tag.stop tag.name = some (tag.location text).stop ∧
      ∃ k gap, Scan.closing? tag.stop tag.name 0 (text.drop tag.stop) =
          some (k, ⟨tag.name, (tag.location text).stop⟩) ∧ tag.stop ≤ k ∧
        Scan.WrittenAt text ⟨tag.name, (tag.location text).stop⟩ gap k := by
  have itself : tag.closesItself = false := paired
  simp only [location, itself, Bool.false_eq_true, if_false] at closed ⊢
  obtain ⟨stop, ended⟩ := Option.isSome_iff_exists.1 closed
  rw [ended, Option.getD_some]
  refine ⟨rfl, ?_⟩
  rw [Units.contentEnd, Scan.contentEnd_eq_closing?] at ended
  obtain ⟨⟨k, name, stop⟩, found, rfl⟩ := Option.map_eq_some_iff.1 ended
  obtain ⟨forward, named, gap, written⟩ := Scan.closing?_writtenAt found
  cases named
  exact ⟨k, gap, found, forward, written⟩

end OpenTag

/-- The last `</` of an element that ends in a closing tag is the one of that tag. -/
theorem Location.Sound.innerRange?_eq {text : Bytes} {loc : Location} (sound : loc.Sound text)
    (paired : loc.selfClosing = false) (closed : loc.closed = true) {name gap : Bytes} {k : Nat}
    (forward : loc.openEnd ≤ k) (written : Scan.WrittenAt text ⟨name, loc.stop⟩ gap k) :
    loc.innerRange? = some (loc.openEnd, k) := by
  have opened := sound.opened
  have stop : loc.stop = k + (closeTagText name gap).length := written.stop
  have inside := sound.stop.le
  have split : loc.outer = text.slice loc.start k ++ closeTagText name gap := by
    have behind : text.slice k loc.stop = closeTagText name gap := written.text
    rw [sound.outer, ← behind, Bytes.slice_append_slice (by omega) (by omega) (by omega)]
  have width : (text.slice loc.start k).length = k - loc.start := Bytes.length_slice (by omega)
  have apart : ¬ (loc.selfClosing = true ∨ loc.closed = false) := by simp [paired, closed]
  rw [innerRange?, if_neg apart, split, lastIndex?_closeTagText written.named written.blank,
    Option.map_some, width, Nat.add_sub_cancel' (by omega)]

/-- How an element stands in a text where it was located by an id, `tag` being its opening tag. -/
structure Location.Exact (text id : Bytes) (tag : OpenTag) (loc : Location) : Prop where
  opened : loc.start < loc.openEnd
  within : loc.openEnd ≤ loc.stop
  inside : loc.stop ≤ text.length
  less : text[loc.start]? = some Byte.less
  opens : Units.openTag? text loc.start = some tag ∧ tag.stop = loc.openEnd ∧ tag.name = loc.tag
  marked : ∃ a ∈ tag.attributes text, a.Marks text id
  /-- A new attribute is put in right behind the first marker of the tag. -/
  inserts : ∃ a, tag.attribute? text Marker.attributeName = some a ∧
    ∀ addition, tag.insertAttribute text addition = .insertion a.stop (Byte.space :: addition)
  alone : loc.selfClosing = true ∨ loc.closed = false → loc.stop = loc.openEnd
  /-- The content goes up to the closing tag that the search came to. -/
  paired : loc.selfClosing = false → loc.closed = true →
    Units.contentEnd text loc.openEnd loc.tag = some loc.stop ∧ ∃ close gap,
      loc.innerRange? = some (loc.openEnd, close) ∧ loc.openEnd ≤ close ∧ AllBlank gap ∧
      text.slice close loc.stop = closeTagText loc.tag gap ∧
      Scan.closing? loc.openEnd loc.tag 0 (text.drop loc.openEnd) =
        some (close, ⟨loc.tag, loc.stop⟩)
  replaced : loc.closed = true →
    (Edit.replaceElement text id loc.outer).map text.patch = .ok text

theorem insertAttribute_behind {text id : Bytes} {tag : OpenTag}
    (found : locateTag? text id = some tag) :
    ∃ a, tag.attribute? text Marker.attributeName = some a ∧
      ∀ addition,
        tag.insertAttribute text addition = .insertion a.stop (Byte.space :: addition) := by
  obtain ⟨a, marker⟩ := marker_of_locateTag? found
  refine ⟨a, marker, fun addition => ?_⟩
  rw [OpenTag.insertAttribute, marker]

/-- An element replaced by itself leaves the text as it was. -/
theorem replaceElement_outer {text id : Bytes} {loc : Location}
    (located : locate? text id = some loc) (closed : loc.closed = true) :
    (Edit.replaceElement text id loc.outer).map text.patch = .ok text := by
  have sound := sound_of_locate? located
  have le : loc.start ≤ loc.stop := Nat.le_trans (Nat.le_of_lt sound.opened) sound.within
  rw [Edit.replaceElement, locateClosed_eq_ok.2 ⟨located, closed⟩]
  change Except.ok (text.splice loc.start loc.stop loc.outer) = _
  rw [sound.outer, Bytes.splice_slice le]

/-- Every location is exact, whatever the text and the id are. -/
theorem located_exactly {text id : Bytes} {loc : Location} (h : locate? text id = some loc) :
    ∃ tag, locateTag? text id = some tag ∧ loc.Exact text id tag := by
  have sound := sound_of_locate? h
  have replaced := replaceElement_outer h
  obtain ⟨tag, found, rfl⟩ := Option.map_eq_some_iff.1 h
  obtain ⟨m, -, start, owns, -⟩ := locateTag?_eq_some_iff.1 found
  have opens := owns.opens
  rw [← start_owner? owns] at opens
  refine ⟨tag, found, {
    opened := sound.opened
    within := sound.within
    inside := sound.stop.le
    less := (sound_of_locateTag? found).less
    opens := ⟨opens, rfl, rfl⟩
    marked := marks_of_locateTag? found
    inserts := insertAttribute_behind found
    alone := OpenTag.location_alone
    paired := fun paired closed => ?_
    replaced }⟩
  obtain ⟨ended, k, gap, search, forward, written⟩ := OpenTag.location_paired paired closed
  exact ⟨ended, k, gap, sound.innerRange?_eq paired closed forward written, forward, written.blank,
    written.text, search⟩

theorem located_exactly_in_broken_text :
    let text := utf8 "\x7b'<p data-eid=\"a\">\x7b\"</p>\"\x7d<!-- </p> --></i></p >\"</p>"
    ∃ loc tag, locate? text (utf8 "a") = some loc ∧ loc.innerRange? = some (18, 43) ∧
      loc.stop = 48 ∧ locateTag? text (utf8 "a") = some tag ∧
      loc.Exact text (utf8 "a") tag := by
  intro text
  let loc : Location := ⟨2, 48, 18, text.slice 2 48, utf8 "p", none, false, true⟩
  have located : locate? text (utf8 "a") = some loc := by decide +kernel
  obtain ⟨tag, found, exact⟩ := located_exactly located
  exact ⟨loc, tag, located, by decide +kernel, rfl, found, exact⟩

end MarkupEdit
