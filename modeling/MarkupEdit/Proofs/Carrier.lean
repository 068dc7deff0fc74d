import MarkupEdit.Proofs.Element

/-!
Which tag as written can own a marker. A tag owns a place where the marker of an id stands only
if that marker is one of its own items: the name and the value of an item are read whole, so a
marker that begins where an item begins is all of it.
-/

namespace MarkupEdit

theorem QuotedText.unique {quote : UInt8} (hq : Byte.isQuote quote = true) {b c s t : Bytes}
    (hb : QuotedText quote b) (hc : QuotedText quote c)
    (same : b ++ quote :: s = c ++ quote :: t) : b = c := by
  have ended := Scan.quotedEnd_text hq hb 0 s
  rw [same, Scan.quotedEnd_text hq hc] at ended
  have width : b.length = c.length := by simpa using ended.symm
  exact List.append_inj_left same width

theorem ofId_append (id r : Bytes) :
    Marker.ofId id ++ r =
      Marker.attributeName ++ Byte.equals :: Byte.doubleQuote :: (id ++ Byte.doubleQuote :: r) := by
  simp only [Marker.ofId, Marker.opening, List.append_assoc, List.singleton_append]
  rfl

theorem eq_attributeName {name rest s : Bytes} (hn : ∀ c ∈ name, isItemNameByte c = true)
    (stop : ∀ c, rest.head? = some c → isItemNameByte c = false)
    (same : name ++ rest = Marker.attributeName ++ Byte.equals :: s) :
    name = Marker.attributeName ∧ rest = Byte.equals :: s := by
  have run := Scan.takeWhile_append_stop hn stop
  have marker : (Marker.attributeName ++ Byte.equals :: s).takeWhile isItemNameByte =
      Marker.attributeName := by
    apply Scan.takeWhile_append_stop isItemName_attributeName.2
    rintro c ⟨⟩
    decide
  rw [same, marker] at run
  subst run
  exact ⟨rfl, List.append_cancel_left same⟩

theorem eq_nil_of_blank {gap rest t : Bytes} {c : UInt8} (hg : AllBlank gap)
    (hc : Byte.isBlank c = false) (same : gap ++ rest = c :: t) : gap = [] := by
  cases gap with
  | nil => rfl
  | cons d gap =>
      cases same
      exact absurd (hg c List.mem_cons_self) (by simp [hc])

/-- A value that begins with a double quote is the literal up to the quote that closes it. -/
theorem eq_quoted_of_value {v id rest r : Bytes} (hv : IsValue v)
    (hid : QuotedText Byte.doubleQuote id)
    (same : v ++ rest = Byte.doubleQuote :: (id ++ Byte.doubleQuote :: r)) :
    v = Byte.doubleQuote :: id ++ [Byte.doubleQuote] := by
  rcases hv with literal | ⟨ne, bare⟩
  · cases literal with
    | quoted hq hb =>
        rw [delimited_append] at same
        obtain ⟨rfl, inside⟩ := List.cons.inj same
        rw [QuotedText.unique hq hb hid inside]
    | backticks hb | braces hb =>
        rw [delimited_append] at same
        exact absurd (List.cons.inj same).1 (by decide)
  · obtain ⟨c, t, rfl⟩ := List.exists_cons_of_ne_nil ne
    obtain ⟨rfl, -⟩ := List.cons.inj same
    exact absurd (bare _ List.mem_cons_self) (by decide)

theorem getElem?_of_border {needle : Bytes} {k j : Nat} (border : needle.drop k <+: needle)
    (hj : k + j < needle.length) : needle[j]? = needle[k + j]? := by
  obtain ⟨r, same⟩ := border
  have inside : j < (needle.drop k).length := by
    rw [List.length_drop]
    omega
  calc needle[j]? = (needle.drop k ++ r)[j]? := by rw [same]
    _ = (needle.drop k)[j]? := List.getElem?_append_left inside
    _ = needle[k + j]? := List.getElem?_drop

/-- A border of a marker would hold its `=` a second time, or a quote in front of the first. -/
theorem unbordered_ofId {id : Bytes} (plain : Byte.equals ∉ id) :
    Bytes.Unbordered (Marker.ofId id) := by
  intro k pos lt border
  let tail := Byte.doubleQuote :: (id ++ [Byte.doubleQuote])
  have marker : Marker.ofId id = Marker.attributeName ++ Byte.equals :: tail := by
    simpa using ofId_append id []
  have eight : Marker.attributeName.length = 8 := rfl
  by_cases beyond : k + 8 < (Marker.ofId id).length
  · have first : (Marker.ofId id)[8]? = some Byte.equals := by
      rw [marker, List.getElem?_append_right (Nat.le_of_eq eight), eight]
      rfl
    have second : (Marker.ofId id)[k + 8]? = tail[k - 1]? := by
      rw [marker, List.getElem?_append_right (by omega), eight,
        show k + 8 - 8 = k - 1 + 1 by omega, List.getElem?_cons_succ]
    have mem : Byte.equals ∈ tail := by
      apply List.mem_of_getElem?
      rw [← second, ← getElem?_of_border border beyond, first]
    rcases List.mem_cons.1 mem with quote | mem
    · exact absurd quote (by decide)
    · rcases List.mem_append.1 mem with mem | mem
      · exact plain mem
      · exact absurd (List.mem_singleton.1 mem) (by decide)
  · have last : (Marker.ofId id)[(Marker.ofId id).length - 1]? = some Byte.doubleQuote := by
      rw [← List.getLast?_eq_getElem?, Marker.ofId, List.getLast?_concat]
    have same := getElem?_of_border (j := (Marker.ofId id).length - 1 - k) border (by omega)
    rw [show k + ((Marker.ofId id).length - 1 - k) = (Marker.ofId id).length - 1 by omega, last,
      marker, List.getElem?_append_left (by rw [← marker]; omega)] at same
    exact absurd (List.mem_of_getElem? same) (by decide)

/-- A marker of an id without `=` is found in every tag that carries it. -/
theorem LoosePlace.mem_offsets {tag : LooseTag} {id : Bytes} (place : LoosePlace tag id)
    (plain : Byte.equals ∉ id) (p s : Bytes) :
    place.offset p.length ∈ Marker.offsets (p ++ (tag.text ++ s)) id := by
  have stands : Marker.ofId id <+: (p ++ (tag.text ++ s)).drop (place.offset p.length) := by
    rw [place.text_split, ← place.length_front, List.drop_left]
    exact List.prefix_append _ _
  have found := Bytes.mem_occurrences_of_stands (ofId_ne_nil id) (unbordered_ofId plain) stands
  exact List.mem_filter.2 ⟨found, place.isFresh_offset p s⟩

theorem MarkerPlace.mem_offsets {tag : TagText} {id : Bytes} (place : MarkerPlace tag id)
    (plain : Byte.equals ∉ id) (p s : Bytes) :
    place.offset p.length ∈ Marker.offsets (p ++ (tag.text ++ s)) id :=
  place.loose.mem_offsets plain p s

/-- An attribute that begins where a marker stands is the marker. -/
theorem eq_markerItem {item : Item} (valid : item.Valid) {id rest r : Bytes}
    (hid : QuotedText Byte.doubleQuote id)
    (stop : ∀ c, rest.head? = some c → isItemNameByte c = false ∧ c ≠ Byte.equals)
    {i : Nat} {a : Attribute} (found : item.attribute? i = some a)
    (same : item.text ++ rest = Marker.ofId id ++ r) : item = markerItem id := by
  rw [ofId_append] at same
  cases item with
  | spread body => cases found
  | flag name =>
      obtain ⟨-, behind⟩ := eq_attributeName valid.2 (fun c hc => (stop c hc).1) same
      exact absurd rfl (stop Byte.equals (by rw [behind]; rfl)).2
  | valued name before after value =>
      obtain ⟨hn, hbefore, hafter, hv⟩ := valid
      simp only [Item.text, List.append_assoc, List.cons_append] at same
      have nameStop : ∀ c, (before ++ Byte.equals :: (after ++ (value ++ rest))).head? = some c →
          isItemNameByte c = false := by
        intro c hc
        rcases head?_blanks_equals hbefore _ hc with blank | rfl
        · simp [isItemNameByte, Attribute.isAttributeNameByte, blank]
        · decide
      obtain ⟨rfl, behind⟩ := eq_attributeName hn.2 nameStop same
      cases eq_nil_of_blank hbefore (by decide) behind
      have value := (List.cons.inj behind).2
      cases eq_nil_of_blank hafter (by decide) value
      rw [eq_quoted_of_value hv hid value]
      rfl

/-- The marker of an id is one of the items of the tag. -/
def TagText.Carries (tag : TagText) (id : Bytes) : Prop := ∃ gap, (gap, markerItem id) ∈ tag.items

theorem TagText.Carries.place {tag : TagText} {id : Bytes} (carries : tag.Carries id) :
    Nonempty (MarkerPlace tag id) := by
  obtain ⟨gap, mem⟩ := carries
  obtain ⟨earlier, later, split⟩ := List.append_of_mem mem
  exact ⟨⟨earlier, gap, later, split⟩⟩

theorem TagText.Carries.quoted {tag : TagText} {id : Bytes} (carries : tag.Carries id) :
    QuotedText Byte.doubleQuote id := by
  obtain ⟨gap, mem⟩ := carries
  obtain ⟨-, -, -, value⟩ := (tag.valid _ mem).item
  rcases value with literal | ⟨-, bare⟩
  · generalize whole : Byte.doubleQuote :: id ++ [Byte.doubleQuote] = l at literal
    cases literal with
    | quoted hq hb =>
        obtain ⟨rfl, inside⟩ := List.cons.inj whole
        rw [List.append_cancel_right inside]
        exact hb
    | backticks hb | braces hb => exact absurd (List.cons.inj whole).1 (by decide)
  · exact absurd (bare Byte.doubleQuote List.mem_cons_self) (by decide)

theorem head?_behind_item (tag : TagText) {items : List SpacedItem}
    (h : ∀ x ∈ items, SpacedItem.Valid x) (s : Bytes) {c : UInt8}
    (hc : (itemsText items ++ (tag.gap ++ (tagEnding tag.slashed ++ s))).head? = some c) :
    isItemNameByte c = false ∧ c ≠ Byte.equals := by
  have notNameByte : Byte.isBlank c = true → isItemNameByte c = false ∧ c ≠ Byte.equals := by
    intro blank
    refine ⟨by simp [isItemNameByte, Attribute.isAttributeNameByte, blank], ?_⟩
    rintro rfl
    exact absurd blank (by decide)
  rw [← List.append_assoc] at hc
  cases empty : itemsText items ++ tag.gap with
  | nil =>
      rw [empty, List.nil_append, Scan.head?_tagEnding] at hc
      cases hc
      cases tag.slashed <;> decide
  | cons d t =>
      rw [empty] at hc
      apply notNameByte
      exact head?_itemsText h tag.blank (by rw [empty]; exact hc)

theorem carries_of_owns {tag : TagText} {id : Bytes} (hid : QuotedText Byte.doubleQuote id)
    {p s : Bytes} {m : Nat} {t : OpenTag} (owns : Owns (p ++ (tag.text ++ s)) p.length m t)
    (stands : Marker.ofId id <+: (p ++ (tag.text ++ s)).drop m) : tag.Carries id := by
  have reading : t = tag.reading p.length := by
    have opens := owns.opens
    rw [tag.openTag?_in] at opens
    exact (Option.some.inj opens).symm
  obtain ⟨a, mem, rfl⟩ := owns.starts
  rw [reading, tag.attributes_in] at mem
  obtain ⟨earlier, gap, item, later, split, found⟩ := mem_itemAttributes.1 mem
  have valid : SpacedItem.Valid (gap, item) := tag.valid _ (by simp [split])
  let front := p ++ Byte.less :: (tag.name ++ (itemsText earlier ++ gap))
  let behind := itemsText later ++ (tag.gap ++ (tagEnding tag.slashed ++ s))
  have whole : p ++ (tag.text ++ s) = front ++ (item.text ++ behind) := by
    simp only [front, behind, TagText.text, openTagText, TagText.attributes, split,
      itemsText_append, itemsText, List.append_assoc, List.cons_append]
  have width : a.start = front.length := by
    rw [start_attribute? found]
    simp only [front, List.length_append, List.length_cons]
    omega
  rw [whole, width, List.drop_left] at stands
  obtain ⟨r, same⟩ := stands
  have stop : ∀ c, behind.head? = some c → isItemNameByte c = false ∧ c ≠ Byte.equals :=
    fun c hc => head?_behind_item tag
      (fun x hx => tag.valid x (by rw [split]; simp [hx])) s hc
  obtain rfl := eq_markerItem valid.item hid stop found same.symm
  exact ⟨gap, by simp [split]⟩

end MarkupEdit
