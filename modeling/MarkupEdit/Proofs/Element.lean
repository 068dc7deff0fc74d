import MarkupEdit.Proofs.Owner

/-!
Elements as written, in any context. An element whose marker stands in a text exactly once is
located where it is written, from its own bytes alone: neither what stands before it nor what
stands behind it has a part in the answer, however broken that may be.
-/

namespace MarkupEdit

/-- The marker of an id, as an item of a tag. -/
def markerItem (id : Bytes) : Item :=
  .quoted Byte.doubleQuote Marker.attributeName id

theorem isItemName_attributeName : IsItemName Marker.attributeName := by decide

theorem text_markerItem (id : Bytes) : (markerItem id).text = Marker.ofId id := by
  simp only [markerItem, Item.quoted, Item.text, List.nil_append, Marker.ofId, Marker.opening,
    List.append_assoc, List.cons_append]
  rfl

theorem ofId_ne_nil (id : Bytes) : Marker.ofId id ≠ [] := by
  simp [Marker.ofId]

/-- An opening tag with a marker and no other attribute. -/
def TagText.ofId (name id : Bytes) (isName : IsTagName name)
    (hid : QuotedText Byte.doubleQuote id) : TagText :=
  .ofQuoted name Byte.doubleQuote Marker.attributeName id isName rfl isItemName_attributeName hid

/-- An element as written: an opening tag and, unless that is all of it, content and a closing
tag. -/
structure ElementText where
  tag : TagText
  content : Bytes
  gap : Bytes
  isContent : Markup .content content
  blank : AllBlank gap

namespace ElementText

def tail (e : ElementText) : Bytes :=
  if e.tag.closesItself then [] else e.content ++ closeTagText e.tag.name e.gap

def text (e : ElementText) : Bytes := e.tag.text ++ e.tail

theorem markup (e : ElementText) : Markup .element e.text := by
  cases alone : e.tag.closesItself with
  | true =>
      rw [text, tail, if_pos alone, List.append_nil]
      exact .single e.tag.isName alone e.tag.attributes_markup e.tag.attributes_bounded
  | false =>
      have parts := Bool.or_eq_false_iff.1 alone
      have bounded := e.tag.attributes_bounded
      rw [parts.1] at bounded
      have := Markup.paired e.tag.isName parts.2 e.tag.attributes_markup bounded e.isContent
        e.blank
      rw [text, tail, if_neg (by simp [alone]), TagText.text, parts.1, ← List.append_assoc]
      exact this

end ElementText

/-- Where the marker of an id stands in a tag whose parts may touch. White space stands in front
of a marker all the same. -/
structure LoosePlace (tag : LooseTag) (id : Bytes) where
  earlier : List SpacedItem
  gap : Bytes
  later : List SpacedItem
  split : tag.items = earlier ++ (gap, markerItem id) :: later
  apart : gap ≠ []

namespace LoosePlace

variable {tag : LooseTag} {id : Bytes} (place : LoosePlace tag id)

/-- What stands between the `<` of the tag and the marker. -/
def lead : Bytes := tag.name ++ (itemsText place.earlier ++ place.gap)

def trail : Bytes := itemsText place.later ++ (tag.gap ++ tagEnding tag.slashed)

/-- The offset of the marker, where the tag stands at offset `i`. -/
def offset (i : Nat) : Nat := i + 1 + place.lead.length

theorem text_eq : tag.text = Byte.less :: (place.lead ++ (Marker.ofId id ++ place.trail)) := by
  simp only [LooseTag.text, openTagText, LooseTag.attributes, place.split, itemsText_append,
    itemsText, text_markerItem, lead, trail, List.append_assoc]

theorem mem_attributes (i : Nat) :
    ∃ a ∈ itemAttributes (i + 1 + tag.name.length) tag.items, a.start = place.offset i := by
  have found : ∃ a, (markerItem id).attribute?
      (i + 1 + tag.name.length + (itemsText place.earlier).length + place.gap.length) = some a :=
    ⟨_, rfl⟩
  obtain ⟨a, ha⟩ := found
  refine ⟨a, mem_itemAttributes.2 ⟨_, _, _, _, place.split, ha⟩, ?_⟩
  rw [start_attribute? ha, offset, lead, List.length_append, List.length_append]
  omega

theorem offset_lt (i : Nat) : place.offset i < i + tag.text.length := by
  have := List.length_pos_iff.2 (ofId_ne_nil id)
  rw [place.text_eq, offset, List.length_cons, List.length_append, List.length_append]
  omega

theorem text_split (p s : Bytes) :
    p ++ (tag.text ++ s) =
      (p ++ Byte.less :: place.lead) ++ (Marker.ofId id ++ (place.trail ++ s)) := by
  simp only [place.text_eq, List.cons_append, List.append_assoc]

theorem length_front (p : Bytes) :
    (p ++ Byte.less :: place.lead).length = place.offset p.length := by
  simp only [offset, List.length_append, List.length_cons]
  omega

theorem owns (stands : tag.Stands) (p s : Bytes) :
    Owns (p ++ (tag.text ++ s)) p.length (place.offset p.length) (tag.reading p.length) where
  opens := stands.openTag?_in p s
  before := by
    rw [offset]
    omega
  reaches := by
    have stop : (tag.reading p.length).stop = p.length + tag.text.length :=
      Scan.stop_openTagText tag.name tag.attributes tag.slashed p.length
    rw [stop]
    exact place.offset_lt p.length
  starts := by
    rw [stands.attributes_in]
    exact place.mem_attributes p.length

end LoosePlace

/-- Where the marker of an id stands in a tag. -/
structure MarkerPlace (tag : TagText) (id : Bytes) where
  earlier : List SpacedItem
  gap : Bytes
  later : List SpacedItem
  split : tag.items = earlier ++ (gap, markerItem id) :: later

namespace MarkerPlace

variable {tag : TagText} {id : Bytes} (place : MarkerPlace tag id)

/-- What stands between the `<` of the tag and the marker. -/
def lead : Bytes := tag.name ++ (itemsText place.earlier ++ place.gap)

def trail : Bytes := itemsText place.later ++ (tag.gap ++ tagEnding tag.slashed)

/-- The offset of the marker, where the tag stands at offset `i`. -/
def offset (i : Nat) : Nat := i + 1 + place.lead.length

theorem valid : SpacedItem.Valid (place.gap, markerItem id) :=
  tag.valid _ (by simp [place.split])

def loose : LoosePlace tag.loose id :=
  ⟨place.earlier, place.gap, place.later, place.split, place.valid.apart⟩

theorem text_eq : tag.text = Byte.less :: (place.lead ++ (Marker.ofId id ++ place.trail)) :=
  place.loose.text_eq

theorem owns (p s : Bytes) :
    Owns (p ++ (tag.text ++ s)) p.length (place.offset p.length) (tag.reading p.length) :=
  place.loose.owns tag.stands_loose p s

end MarkerPlace

theorem Owns.less {text : Bytes} {start marker : Nat} {tag : OpenTag}
    (owns : Owns text start marker tag) : ∃ t, text.drop start = Byte.less :: t := by
  obtain ⟨t, less, -⟩ := Units.openTag?_eq_some_iff.1 owns.opens
  exact ⟨t, less⟩

theorem mem_of_drop_append {u s t : Bytes} {c : UInt8} {k : Nat} (hk : k < u.length)
    (h : (u ++ s).drop k = c :: t) : c ∈ u := by
  rw [List.drop_append_of_le_length (Nat.le_of_lt hk)] at h
  cases rest : u.drop k with
  | nil =>
      have := List.drop_eq_nil_iff.1 rest
      omega
  | cons d v =>
      rw [rest] at h
      cases h
      exact List.mem_of_mem_drop (by rw [rest]; exact List.mem_cons_self)

/-- Where no `<` stands between a tag and its marker, the tag is the owner. -/
theorem owner?_loosePlace {tag : LooseTag} (stands : tag.Stands) {id : Bytes}
    (place : LoosePlace tag id) (clear : Byte.less ∉ place.lead) (p s : Bytes) :
    owner? (p ++ (tag.text ++ s)) (place.offset p.length) = some (tag.reading p.length) := by
  refine owner?_eq_some_iff.2 ⟨p.length, place.owns stands p s, fun j tag' hj owns => clear ?_⟩
  obtain ⟨t, ht⟩ := owns.less
  have before := owns.before
  rw [LoosePlace.offset] at before
  have split : p ++ (tag.text ++ s) =
      (p ++ [Byte.less]) ++ (place.lead ++ (Marker.ofId id ++ place.trail ++ s)) := by
    simp only [place.text_eq, List.cons_append, List.nil_append, List.append_assoc]
  have behind : (p ++ [Byte.less]).length = p.length + 1 := by simp
  rw [split, show j = (p ++ [Byte.less]).length + (j - (p.length + 1)) by omega,
    ← List.drop_drop, List.drop_left] at ht
  exact mem_of_drop_append (by omega) ht

theorem owner?_markerPlace {tag : TagText} {id : Bytes} (place : MarkerPlace tag id)
    (clear : Byte.less ∉ place.lead) (p s : Bytes) :
    owner? (p ++ (tag.text ++ s)) (place.offset p.length) = some (tag.reading p.length) :=
  owner?_loosePlace tag.stands_loose place.loose clear p s

theorem isFresh_blank {gap : Bytes} (ne : gap ≠ []) (hg : AllBlank gap) (u s : Bytes) :
    Marker.isFresh (u ++ (gap ++ s)) (u ++ gap).length = true := by
  obtain ⟨g, c, rfl⟩ : ∃ g c, gap = g ++ [c] :=
    ⟨_, _, (List.dropLast_concat_getLast ne).symm⟩
  have width : (u ++ (g ++ [c])).length = (u ++ g).length + 1 := by
    simp only [List.length_append, List.length_singleton]
    omega
  have split : u ++ ((g ++ [c]) ++ s) = (u ++ g) ++ c :: s := by simp
  rw [width, split, Marker.isFresh, List.drop_left]
  simpa using hg c (by simp)

theorem LoosePlace.isFresh_offset {tag : LooseTag} {id : Bytes} (place : LoosePlace tag id)
    (p s : Bytes) : Marker.isFresh (p ++ (tag.text ++ s)) (place.offset p.length) = true := by
  have blank : AllBlank place.gap :=
    (tag.valid (place.gap, markerItem id) (by simp [place.split])).blank
  have fresh := isFresh_blank place.apart blank
    (p ++ Byte.less :: (tag.name ++ itemsText place.earlier))
    (Marker.ofId id ++ (place.trail ++ s))
  rw [place.text_split, ← place.length_front]
  simpa only [lead, List.append_assoc, List.cons_append] using fresh

namespace MarkerPlace

variable {tag : TagText} {id : Bytes} (place : MarkerPlace tag id) (p s : Bytes)

theorem text_split :
    p ++ (tag.text ++ s) =
      (p ++ Byte.less :: place.lead) ++ (Marker.ofId id ++ (place.trail ++ s)) :=
  place.loose.text_split p s

theorem length_front : (p ++ Byte.less :: place.lead).length = place.offset p.length :=
  place.loose.length_front p

theorem isFresh_offset :
    Marker.isFresh (p ++ (tag.text ++ s)) (place.offset p.length) = true :=
  place.loose.isFresh_offset p s

theorem offsets_once (once : Bytes.times (Marker.ofId id) (p ++ (tag.text ++ s)) = 1) :
    Marker.offsets (p ++ (tag.text ++ s)) id = [place.offset p.length] := by
  have fresh := place.isFresh_offset p s
  rw [place.text_split] at once fresh ⊢
  rw [Marker.offsets, Bytes.occurrences_once (ofId_ne_nil id) once, place.length_front,
    List.filter_cons, if_pos fresh, List.filter_nil]

end MarkerPlace

/-- The tag that carries a marker standing in the text once, with no `<` between its own and the
marker, is found from the id. -/
theorem locateTag?_markerPlace {tag : TagText} {id : Bytes} (place : MarkerPlace tag id)
    (clear : Byte.less ∉ place.lead) (p s : Bytes)
    (once : Bytes.times (Marker.ofId id) (p ++ (tag.text ++ s)) = 1) :
    locateTag? (p ++ (tag.text ++ s)) id = some (tag.reading p.length) := by
  rw [locateTag?, place.offsets_once p s once, List.findSome?_singleton,
    owner?_markerPlace place clear]

theorem slice_append (p u s : Bytes) :
    (p ++ (u ++ s)).slice p.length (p.length + u.length) = u := by
  rw [Bytes.slice, ← List.append_assoc, ← List.length_append, List.take_left, List.drop_left]

theorem location_element (e : ElementText) (p s : Bytes) :
    (e.tag.reading p.length).location (p ++ (e.text ++ s)) =
      { start := p.length
        stop := p.length + e.text.length
        openEnd := p.length + e.tag.text.length
        outer := e.text
        tag := e.tag.name
        classes := Classes.literal? (e.tag.written p.length)
        selfClosing := e.tag.closesItself
        closed := true } := by
  have attributes := e.tag.attributes_in p (e.tail ++ s)
  have close : (if (e.tag.reading p.length).closesItself = true
        then some (e.tag.reading p.length).stop
        else Units.contentEnd (p ++ (e.text ++ s)) (e.tag.reading p.length).stop e.tag.name) =
      some (p.length + e.text.length) := by
    have same : (e.tag.reading p.length).closesItself = e.tag.closesItself := rfl
    rw [same, e.tag.stop_reading, ElementText.text, ElementText.tail]
    cases alone : e.tag.closesItself with
    | true => simp
    | false =>
        have read := contentEnd_in_context e.tag.isName.all e.isContent e.blank
          (p ++ e.tag.text) s
        simpa [Nat.add_assoc] using read
  rw [OpenTag.location]
  have name : (e.tag.reading p.length).name = e.tag.name := rfl
  have start : (e.tag.reading p.length).start = p.length := rfl
  have outer := slice_append p e.text s
  simp only [name, start, close, Option.getD_some, Option.isSome_some, outer]
  rw [e.tag.stop_reading, ElementText.text, List.append_assoc, attributes]
  rfl

/-- An element with a marker that stands in the text once, and with no `<` between the first
byte of its tag and the marker, is located as it is written in front of any text and behind any
text; its outer text is the element itself. -/
theorem located_in_context (e : ElementText) {id : Bytes} (place : MarkerPlace e.tag id)
    (clear : Byte.less ∉ place.lead) (p s : Bytes)
    (once : Bytes.times (Marker.ofId id) (p ++ e.text ++ s) = 1) :
    locate? (p ++ e.text ++ s) id =
      some
        { start := p.length
          stop := p.length + e.text.length
          openEnd := p.length + e.tag.text.length
          outer := e.text
          tag := e.tag.name
          classes := Classes.literal? (e.tag.written p.length)
          selfClosing := e.tag.slashed || isVoidElement e.tag.name
          closed := true } := by
  have split : p ++ e.text ++ s = p ++ (e.tag.text ++ (e.tail ++ s)) := by
    simp only [ElementText.text, List.append_assoc]
  rw [split] at once
  have found := locateTag?_markerPlace place clear p (e.tail ++ s) once
  rw [← split] at found
  rw [locate?, found, Option.map_some, List.append_assoc, location_element]
  rfl

theorem isTagName_bold : IsTagName (utf8 "b") := by decide

/-- The tag `<p data-eid="a">`. -/
def markedParagraph : TagText :=
  .ofId (utf8 "p") (utf8 "a") (by decide) (.ofBytes (by decide))

/-- The element `<p data-eid="a">b<i/></p>`. -/
def paragraph : ElementText where
  tag := markedParagraph
  content := utf8 "b" ++ openTagText (utf8 "i") [] true
  gap := []
  isContent := by
    have child : Markup .element (openTagText (utf8 "i") [] true) :=
      .single (by decide) rfl .attributesNil (.nil true)
    have children : Markup .content (openTagText (utf8 "i") [] true ++ []) :=
      .contentElement child .contentNil
    rw [List.append_nil] at children
    exact .contentByte (by decide) children
  blank := .nil

def paragraphPlace : MarkerPlace markedParagraph (utf8 "a") := ⟨[], [Byte.space], [], rfl⟩

theorem located_in_broken_text :
    Byte.less ∉ paragraphPlace.lead ∧
    Bytes.times (Marker.ofId (utf8 "a")) (utf8 "\x7b'<q" ++ paragraph.text ++ utf8 "\"<p") = 1 ∧
    locate? (utf8 "\x7b'<q" ++ paragraph.text ++ utf8 "\"<p") (utf8 "a") =
      some
        { start := 4
          stop := 29
          openEnd := 20
          outer := paragraph.text
          tag := utf8 "p"
          classes := none
          selfClosing := false
          closed := true } := by
  have clear : Byte.less ∉ paragraphPlace.lead := by decide
  have once : Bytes.times (Marker.ofId (utf8 "a"))
      (utf8 "\x7b'<q" ++ paragraph.text ++ utf8 "\"<p") = 1 := by decide +kernel
  exact ⟨clear, once, located_in_context paragraph paragraphPlace clear _ _ once⟩

end MarkupEdit
