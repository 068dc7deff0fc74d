import MarkupEdit.Proofs.AttributeEdits
import MarkupEdit.Proofs.Carrier
import MarkupEdit.Proofs.LiteralRoundTrip

/-!
An opening tag as written, after an edit of its attributes. Where the value that was written is
whole, the tag is once more one as written, of the same items but for the one that was put in,
taken away or given another value; so it carries no id that it did not carry before.
-/

namespace MarkupEdit

namespace Encoding

theorem isValue_quote {mark : UInt8} (isQuote : Byte.isQuote mark = true) {w : Bytes}
    (absent : mark ∉ w) (plain : Byte.backslash ∉ w) : IsValue (quote mark w) := by
  refine .inl (.quoted isQuote (.ofBytes (List.all_eq_true.2 fun c mem => ?_)))
  rw [Bool.and_eq_true, bne_iff_ne, bne_iff_ne]
  exact ⟨fun same => plain (same ▸ mem), fun same => absent (same ▸ mem)⟩

theorem isValue_formatQuoted {mark other : UInt8} {reference : String}
    (refers : Refers mark reference) (isQuote : Byte.isQuote other = true) {value : Bytes}
    (plain : Byte.backslash ∉ formatQuoted mark other reference value) :
    IsValue (formatQuoted mark other reference value) := by
  rw [formatQuoted] at plain ⊢
  split
  next switched =>
    rw [if_pos switched] at plain
    have absent : other ∉ value := by simpa using switched.2
    exact isValue_quote isQuote absent fun mem =>
      plain (List.mem_cons_of_mem _ (List.mem_append_left _ mem))
  next kept =>
    rw [if_neg kept] at plain
    exact isValue_quote refers.isQuote (not_mem_refer refers value) fun mem =>
      plain (List.mem_cons_of_mem _ (List.mem_append_left _ mem))

theorem literal_brace {l : Bytes} (literal : Markup .literal l) : Markup .literal (brace l) := by
  have block : Markup .block (l ++ []) := .blockLiteral literal .blockNil
  rw [List.append_nil] at block
  exact .braces block

theorem isBareByte_of_isPlainByte {c : UInt8} (h : isPlainByte c = true) : isBareByte c = true := by
  simp_all [isPlainByte, isBareByte]

/-- A value that is written without a backslash is whole. -/
theorem isValue_format {encoding : Encoding} {value : Bytes}
    (plain : Byte.backslash ∉ encoding.format value) : IsValue (encoding.format value) := by
  cases encoding with
  | doubleQuoted => exact isValue_formatQuoted .double rfl plain
  | singleQuoted => exact isValue_formatQuoted .single rfl plain
  | unquoted =>
      rw [format] at plain ⊢
      split
      next bare =>
        have ne : value ≠ [] := by simpa using bare.1
        exact .inr ⟨ne, fun c mem => isBareByte_of_isPlainByte (List.all_eq_true.1 bare.2 c mem)⟩
      next quoted =>
        rw [if_neg quoted] at plain
        exact isValue_formatQuoted .double rfl plain
  | bracedDouble => exact .inl (literal_brace (.quoted rfl (quotedText_escape _ value)))
  | bracedSingle => exact .inl (literal_brace (.quoted rfl (quotedText_escape _ value)))
  | bracedTemplate => exact .inl (literal_brace (.backticks (template_escapeTemplate value)))

end Encoding

theorem stop_attribute? {i : Nat} {item : Item} {a : Attribute}
    (h : item.attribute? i = some a) : a.stop = i + item.text.length := by
  cases item with
  | spread body => cases h
  | flag name =>
      cases h
      rfl
  | valued name before after value =>
      cases h
      simp only [Attribute.stop, Item.length_text_valued]
      omega

theorem Item.Loose.inked {item : Item} (loose : item.Loose) :
    ∃ c, item.text.getLast? = some c ∧ Byte.isBlank c = false := by
  have ofName {c : UInt8} (h : isItemNameByte c = true) : Byte.isBlank c = false := by
    rw [isItemNameByte, Bool.and_eq_true, Bool.and_eq_true] at h
    exact Attribute.not_isBlank_of_nameByte h.1.1
  cases item with
  | spread body => exact ⟨Byte.closeBrace, List.getLast?_concat, by decide⟩
  | flag name =>
      obtain ⟨ne, named⟩ := loose
      exact ⟨_, List.getLast?_eq_some_getLast ne, ofName (named _ (List.getLast_mem ne))⟩
  | valued name before after value =>
      obtain ⟨-, -, -, isValue⟩ := loose
      have last : ∃ c, value.getLast? = some c ∧ Byte.isBlank c = false := by
        cases isValue with
        | inl literal =>
            cases literal with
            | quoted isQuote =>
                exact ⟨_, List.getLast?_concat, Attribute.not_isBlank_of_isQuote isQuote⟩
            | backticks => exact ⟨_, List.getLast?_concat, by decide⟩
            | braces => exact ⟨_, List.getLast?_concat, by decide⟩
        | inr bare =>
            obtain ⟨ne, word⟩ := bare
            exact ⟨_, List.getLast?_eq_some_getLast ne,
              isBlank_of_word (word _ (List.getLast_mem ne))⟩
      obtain ⟨c, last, ink⟩ := last
      refine ⟨c, ?_, ink⟩
      have split : (Item.valued name before after value).text =
          (name ++ (before ++ Byte.equals :: after)) ++ value := by
        simp [Item.text]
      rw [split, List.getLast?_append, last, Option.some_or]

/-- Items do not end in white space. -/
theorem inked_itemsText {items : List SpacedItem} (valid : ∀ x ∈ items, SpacedItem.Loose x)
    {c : UInt8} (last : (itemsText items).getLast? = some c) : Byte.isBlank c = false := by
  induction items with
  | nil => cases last
  | cons x rest ih =>
      obtain ⟨gap, item⟩ := x
      obtain ⟨d, ends, ink⟩ := (valid _ List.mem_cons_self).item.inked
      rw [itemsText, List.getLast?_append, List.getLast?_append, ends] at last
      cases behind : (itemsText rest).getLast? with
      | none =>
          rw [behind] at last
          cases last
          exact ink
      | some e =>
          rw [behind] at last
          cases last
          exact ih (fun y mem => valid y (List.mem_cons_of_mem _ mem)) behind

theorem Patch.apply_between {u w v : Bytes} {q : Patch} (start : q.start = u.length)
    (stop : q.stop = q.start + w.length) :
    q.apply (u ++ (w ++ v)) = u ++ (q.replacement ++ v) := by
  rw [Patch.apply_eq, stop, start, List.take_left, List.drop_length_add_append, List.drop_left,
    List.append_assoc]

theorem itemsText_single (gap : Bytes) (item : Item) :
    itemsText [(gap, item)] = gap ++ item.text := by
  rw [itemsText, itemsText, List.append_nil]

namespace LooseTag

theorem text_around (tag : LooseTag) (u v : Bytes) :
    u ++ (tag.text ++ v) = (u ++ Byte.less :: tag.name) ++
      (itemsText tag.items ++ (tag.gap ++ (tagEnding tag.slashed ++ v))) := by
  simp only [text, openTagText, attributes, List.append_assoc, List.cons_append]

/-- The white space in front of an attribute is all of its gap, as the items before end in ink. -/
theorem removeAttribute_item {tag : LooseTag} {u v : Bytes} {earlier later : List SpacedItem}
    {gap : Bytes} {item : Item} {a : Attribute}
    (split : tag.items = earlier ++ ([(gap, item)] ++ later))
    (found : item.attribute?
      (u.length + 1 + tag.name.length + (itemsText earlier).length + gap.length) = some a) :
    (tag.reading u.length).removeAttribute (u ++ (tag.text ++ v)) a =
      .removal (u.length + 1 + tag.name.length + (itemsText earlier).length)
        (u.length + 1 + tag.name.length + (itemsText earlier).length + gap.length +
          item.text.length) := by
  have first := start_attribute? found
  have front : (u ++ Byte.less :: tag.name).length = (tag.reading u.length).nameEnd := by
    rw [OpenTag.nameEnd, List.length_append, List.length_cons]
    change _ = u.length + 1 + tag.name.length
    omega
  have blank : AllBlank gap := (tag.valid (gap, item) (by simp [split])).blank
  have blanks : ((u ++ (tag.text ++ v)).slice (tag.reading u.length).nameEnd
      a.start).reverse.takeWhile Byte.isBlank = gap.reverse := by
    have whole : u ++ (tag.text ++ v) = (u ++ Byte.less :: tag.name) ++
        ((itemsText earlier ++ gap) ++ (item.text ++ (itemsText later ++
          (tag.gap ++ (tagEnding tag.slashed ++ v))))) := by
      simp only [text_around, split, itemsText_append, itemsText_single, List.append_assoc]
    have reached : a.start = (u ++ Byte.less :: tag.name).length +
        (itemsText earlier ++ gap).length := by
      rw [first]
      simp only [List.length_append, List.length_cons]
      omega
    rw [← front, reached, whole, slice_append, List.reverse_append]
    apply Scan.takeWhile_append_stop
    · exact fun c mem => blank c (List.mem_reverse.1 mem)
    · intro c last
      rw [List.head?_reverse] at last
      exact inked_itemsText (fun z mem => tag.valid z (by rw [split]; simp [mem])) last
  rw [OpenTag.removeAttribute, blanks, first, List.length_reverse, stop_attribute? found]
  congr 1
  omega

end LooseTag

namespace TagText

/-- A tag as written stands in the text where this one stood, and carries no other id. -/
def Remains (tag : TagText) (i : Nat) (text : Bytes) : Prop :=
  ∃ (edited : TagText) (u v : Bytes), text = u ++ (edited.text ++ v) ∧ u.length = i ∧
    ∀ id, edited.Carries id → tag.Carries id

variable {tag : TagText} {u v : Bytes} {q : Patch}

theorem text_around (tag : TagText) (u v : Bytes) :
    u ++ (tag.text ++ v) = (u ++ Byte.less :: tag.name) ++
      (itemsText tag.items ++ (tag.gap ++ (tagEnding tag.slashed ++ v))) :=
  tag.loose.text_around u v

/-- Some items of a tag are written anew, from `x` to `y`, and none of them becomes a marker. -/
theorem remains_of_items {earlier later old new : List SpacedItem}
    (split : tag.items = earlier ++ (old ++ later)) (valid : ∀ x ∈ new, SpacedItem.Valid x)
    (unmarked : ∀ gap id, (gap, markerItem id) ∈ new → (gap, markerItem id) ∈ old)
    {x w y : Bytes} (before : itemsText old = x ++ (w ++ y))
    (after : itemsText new = x ++ (q.replacement ++ y))
    (start : q.start =
      u.length + 1 + tag.name.length + (itemsText earlier).length + x.length)
    (stop : q.stop = q.start + w.length) :
    tag.Remains u.length (q.apply (u ++ (tag.text ++ v))) := by
  have all : ∀ z ∈ earlier ++ (new ++ later), SpacedItem.Valid z := by
    intro z mem
    cases List.mem_append.1 mem with
    | inl mem => exact tag.valid z (by rw [split]; exact List.mem_append_left _ mem)
    | inr mem =>
        cases List.mem_append.1 mem with
        | inl mem => exact valid z mem
        | inr mem =>
            exact tag.valid z (by
              rw [split]
              exact List.mem_append_right _ (List.mem_append_right _ mem))
  refine ⟨{ tag with items := earlier ++ (new ++ later), valid := all }, u, v, ?_, rfl, ?_⟩
  · have front : q.start = ((u ++ Byte.less :: tag.name) ++ (itemsText earlier ++ x)).length := by
      rw [start]
      simp only [List.length_append, List.length_cons]
      omega
    have whole : u ++ (tag.text ++ v) =
        ((u ++ Byte.less :: tag.name) ++ (itemsText earlier ++ x)) ++
          (w ++ (y ++ (itemsText later ++ (tag.gap ++ (tagEnding tag.slashed ++ v))))) := by
      simp only [text_around, split, itemsText_append, before, List.append_assoc]
    rw [whole, Patch.apply_between front stop, text_around]
    simp only [itemsText_append, after, List.append_assoc]
  · rintro id ⟨gap, mem⟩
    refine ⟨gap, ?_⟩
    rw [split]
    cases List.mem_append.1 mem with
    | inl mem => exact List.mem_append_left _ mem
    | inr mem =>
        apply List.mem_append_right
        cases List.mem_append.1 mem with
        | inl mem => exact List.mem_append_left _ (unmarked gap id mem)
        | inr mem => exact List.mem_append_right _ mem

/-- Each attribute that is read in a tag as written is one of its items. -/
theorem item_of_attribute {a : Attribute}
    (mem : a ∈ (tag.reading u.length).attributes (u ++ (tag.text ++ v))) :
    ∃ earlier gap item later, tag.items = earlier ++ ([(gap, item)] ++ later) ∧
      SpacedItem.Valid (gap, item) ∧
      item.attribute? (u.length + 1 + tag.name.length + (itemsText earlier).length + gap.length) =
        some a := by
  rw [tag.attributes_in] at mem
  obtain ⟨earlier, gap, item, later, split, found⟩ := mem_itemAttributes.1 mem
  exact ⟨earlier, gap, item, later, split, tag.valid _ (by simp [split]), found⟩

theorem not_marker_of_name {name before after value gap : Bytes}
    (unmarked : name ≠ Marker.attributeName) {old : List SpacedItem} (gap' id : Bytes)
    (mem : (gap', markerItem id) ∈ [(gap, Item.valued name before after value)]) :
    (gap', markerItem id) ∈ old := by
  have same := (Prod.mk.inj (List.mem_singleton.1 mem)).2
  injection same with named
  exact absurd named.symm unmarked

theorem remains_insert {marker : Attribute}
    (marked : (tag.reading u.length).attribute? (u ++ (tag.text ++ v)) Marker.attributeName =
      some marker) {name value : Bytes} (isName : IsItemName name)
    (unmarked : name ≠ Marker.attributeName)
    (isValue : IsValue (Encoding.doubleQuoted.format value)) :
    tag.Remains u.length (((tag.reading u.length).insertAttribute (u ++ (tag.text ++ v))
      (writeAttribute name value)).apply (u ++ (tag.text ++ v))) := by
  obtain ⟨earlier, gap, item, later, split, valid, found⟩ :=
    item_of_attribute (mem_of_attribute? marked)
  have written : SpacedItem.Valid
      ([Byte.space], .valued name [] [] (Encoding.doubleQuoted.format value)) :=
    ⟨List.cons_ne_nil _ _, show AllBlank [Byte.space] by decide, isName, .nil, .nil, isValue⟩
  have all : ∀ z ∈ [(gap, item),
      ([Byte.space], .valued name [] [] (Encoding.doubleQuoted.format value))],
      SpacedItem.Valid z := by
    intro z mem
    cases List.mem_cons.1 mem with
    | inl same => rwa [same]
    | inr mem => rwa [List.mem_singleton.1 mem]
  rw [OpenTag.insertAttribute, marked]
  refine remains_of_items (x := gap ++ item.text) (w := []) (y := []) split all ?_ ?_ ?_ ?_ rfl
  · intro gap' id mem
    cases List.mem_cons.1 mem with
    | inl same => exact List.mem_singleton.2 same
    | inr mem => exact not_marker_of_name unmarked gap' id mem
  · rw [itemsText_single, List.append_nil, List.append_nil]
  · simp [itemsText, Item.text, Patch.insertion, writeAttribute]
  · rw [Patch.insertion]
    dsimp only
    rw [stop_attribute? found, List.length_append]
    omega

theorem removeAttribute_item {earlier later : List SpacedItem} {gap : Bytes} {item : Item}
    {a : Attribute} (split : tag.items = earlier ++ ([(gap, item)] ++ later))
    (found : item.attribute?
      (u.length + 1 + tag.name.length + (itemsText earlier).length + gap.length) = some a) :
    (tag.reading u.length).removeAttribute (u ++ (tag.text ++ v)) a =
      .removal (u.length + 1 + tag.name.length + (itemsText earlier).length)
        (u.length + 1 + tag.name.length + (itemsText earlier).length + gap.length +
          item.text.length) :=
  @LooseTag.removeAttribute_item tag.loose u v _ _ _ _ _ split found

theorem remains_remove {a : Attribute}
    (mem : a ∈ (tag.reading u.length).attributes (u ++ (tag.text ++ v))) :
    tag.Remains u.length (((tag.reading u.length).removeAttribute (u ++ (tag.text ++ v)) a).apply
      (u ++ (tag.text ++ v))) := by
  obtain ⟨earlier, gap, item, later, split, valid, found⟩ := item_of_attribute mem
  have nothing : ∀ z ∈ ([] : List SpacedItem), SpacedItem.Valid z :=
    fun z mem => absurd mem List.not_mem_nil
  rw [removeAttribute_item split found]
  refine remains_of_items (x := []) (w := gap ++ item.text) (y := []) split nothing
    (fun gap' id mem => absurd mem List.not_mem_nil) ?_ rfl ?_ ?_
  · rw [itemsText_single, List.append_nil, List.nil_append]
  · rfl
  · simp only [Patch.removal, List.length_append]
    omega

theorem remains_replace {a : Attribute}
    (mem : a ∈ (tag.reading u.length).attributes (u ++ (tag.text ++ v)))
    (unmarked : a.name ≠ Marker.attributeName) {raw : Bytes} (isValue : IsValue raw) :
    tag.Remains u.length ((a.replaceValue raw).apply (u ++ (tag.text ++ v))) := by
  obtain ⟨earlier, gap, item, later, split, valid, found⟩ := item_of_attribute mem
  obtain ⟨apart, blank, isItem⟩ := valid
  cases item with
  | spread body => cases found
  | flag name =>
      cases found
      have written : SpacedItem.Valid (gap, .valued name [] [] raw) :=
        ⟨apart, blank, isItem, .nil, .nil, isValue⟩
      refine remains_of_items (x := gap ++ name) (w := []) (y := []) split
        (List.forall_mem_singleton.2 written) (not_marker_of_name unmarked) ?_ ?_ ?_ rfl
      · simp [itemsText, Item.text]
      · simp [itemsText, Item.text, Attribute.replaceValue, Patch.insertion]
      · simp only [Attribute.replaceValue, Patch.insertion, Attribute.nameEnd, List.length_append]
        omega
  | valued name before after value =>
      cases found
      obtain ⟨isName, hbefore, hafter, -⟩ := isItem
      have written : SpacedItem.Valid (gap, .valued name before after raw) :=
        ⟨apart, blank, isName, hbefore, hafter, isValue⟩
      refine remains_of_items (x := gap ++ (name ++ (before ++ Byte.equals :: after))) (w := value)
        (y := []) split (List.forall_mem_singleton.2 written) (not_marker_of_name unmarked)
        ?_ ?_ ?_ rfl
      · simp [itemsText, Item.text]
      · simp [itemsText, Item.text, Attribute.replaceValue]
      · simp only [Attribute.replaceValue, List.length_append, List.length_cons]
        omega

end TagText

/-- An edit of a tag as written that puts in no backslash leaves a tag as written, which carries no
other id. -/
theorem TagEdit.remains {P : Bytes → Prop} {tag : TagText} {u v : Bytes} {q : Patch}
    (edit : TagEdit P (u ++ (tag.text ++ v)) (tag.reading u.length) [q]) {marker : Attribute}
    (marked : (tag.reading u.length).attribute? (u ++ (tag.text ++ v)) Marker.attributeName =
      some marker) (plain : Byte.backslash ∉ q.replacement) :
    tag.Remains u.length (q.apply (u ++ (tag.text ++ v))) := by
  cases edit with
  | @insert name value hn hv isName unmarked =>
      refine TagText.remains_insert marked isName unmarked (Encoding.isValue_format fun mem => ?_)
      apply plain
      exact List.mem_cons_of_mem _ (List.mem_append_right _ (List.mem_cons_of_mem _ mem))
  | @remove a mem editable => exact TagText.remains_remove mem
  | @replace a mem editable encoding value hv =>
      refine TagText.remains_replace mem editable.unmarked (Encoding.isValue_format fun mem => ?_)
      apply plain
      rw [Attribute.replaceValue]
      cases a.value with
      | none => exact List.mem_cons_of_mem _ mem
      | some v => exact mem

end MarkupEdit
