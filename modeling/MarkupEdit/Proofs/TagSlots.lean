import MarkupEdit.Proofs.EditedTag
import MarkupEdit.Proofs.HarmlessValues

/-!
An attribute of a tag as written that is set. Reading an attribute is a lookup among the items of
the tag, the first one of the name counts; setting one writes an item in its place, or behind the
marker where there is none. So the new value is found, all other names are found as before, setting
the value once more changes nothing, and taking away what was added leads back.
-/

namespace MarkupEdit

namespace Item

def name? : Item → Option Bytes
  | spread _ => none
  | flag name => some name
  | valued name _ _ _ => some name

def raw? : Item → Option Bytes
  | valued _ _ _ value => some value
  | _ => none

theorem attribute?_eq_none {i : Nat} {item : Item} (h : item.attribute? i = none) :
    item.name? = none := by
  cases item with
  | spread body => rfl
  | flag name => cases h
  | valued name before after value => cases h

theorem attribute?_eq_some {i : Nat} {item : Item} {a : Attribute}
    (h : item.attribute? i = some a) :
    item.name? = some a.name ∧ a.classify = .classify item.raw? := by
  cases item with
  | spread body => cases h
  | flag name =>
      cases h
      exact ⟨rfl, rfl⟩
  | valued name before after value =>
      cases h
      exact ⟨rfl, rfl⟩

end Item

def lookup? (items : List SpacedItem) (name : Bytes) : Option AttributeValue :=
  (items.find? (·.2.name? = some name)).map fun x => .classify x.2.raw?

variable {name : Bytes}

theorem lookup?_cons_of_eq {x : SpacedItem} (h : x.2.name? = some name) (items : List SpacedItem) :
    lookup? (x :: items) name = some (.classify x.2.raw?) := by
  simp [lookup?, h]

theorem lookup?_cons_of_ne {x : SpacedItem} (h : x.2.name? ≠ some name) (items : List SpacedItem) :
    lookup? (x :: items) name = lookup? items name := by
  simp [lookup?, h]

theorem lookup?_append (earlier later : List SpacedItem) (name : Bytes) :
    lookup? (earlier ++ later) name = (lookup? earlier name).or (lookup? later name) := by
  rw [lookup?, List.find?_append, Option.map_or, ← lookup?, ← lookup?]

theorem lookup?_eq_none {items : List SpacedItem} :
    lookup? items name = none ↔ ∀ x ∈ items, x.2.name? ≠ some name := by
  simp [lookup?]

theorem classify_itemAttributes (i : Nat) (items : List SpacedItem) (name : Bytes) :
    ((itemAttributes i items).find? (·.name = name)).map (·.classify) = lookup? items name := by
  induction items generalizing i with
  | nil => rfl
  | cons x rest ih =>
      obtain ⟨gap, item⟩ := x
      rw [itemAttributes, List.find?_append, Option.map_or, ih]
      cases found : item.attribute? (i + gap.length) with
      | none =>
          have unnamed := Item.attribute?_eq_none found
          rw [lookup?_cons_of_ne (by simp [unnamed])]
          rfl
      | some a =>
          obtain ⟨named, classified⟩ := Item.attribute?_eq_some found
          by_cases same : a.name = name
          · rw [lookup?_cons_of_eq (by rw [named, same]), ← classified]
            simp [same]
          · rw [lookup?_cons_of_ne (by simpa [named] using same)]
            simp [same]

theorem find?_eq_none_of_lookup? {items : List SpacedItem} (h : lookup? items name = none)
    (i : Nat) : (itemAttributes i items).find? (·.name = name) = none := by
  rw [← classify_itemAttributes i, Option.map_eq_none_iff] at h
  exact h

/-- The first attribute of a name stands where the first item of that name stands. -/
theorem find?_first {earlier : List SpacedItem} {gap : Bytes} {item : Item}
    (first : lookup? earlier name = none) (named : item.name? = some name)
    (later : List SpacedItem) (i : Nat) :
    (itemAttributes i (earlier ++ (gap, item) :: later)).find? (·.name = name) =
      item.attribute? (i + (itemsText earlier).length + gap.length) := by
  rw [itemAttributes_append, List.find?_append, find?_eq_none_of_lookup? first, Option.none_or,
    itemAttributes]
  cases found : item.attribute? (i + (itemsText earlier).length + gap.length) with
  | none =>
      rw [Item.attribute?_eq_none found] at named
      cases named
  | some a =>
      rw [(Item.attribute?_eq_some found).1] at named
      simp [Option.some.inj named]

/-- A name that is found has a first item. -/
theorem exists_first_of_present {items : List SpacedItem} (present : lookup? items name ≠ none) :
    ∃ earlier gap item later, items = earlier ++ (gap, item) :: later ∧
      item.name? = some name ∧ lookup? earlier name = none := by
  rw [lookup?, Ne, Option.map_eq_none_iff, ← Ne, Option.ne_none_iff_exists'] at present
  obtain ⟨⟨gap, item⟩, found⟩ := present
  obtain ⟨named, earlier, later, split, before⟩ := List.find?_eq_some_iff_append.1 found
  have first : lookup? earlier name = none :=
    lookup?_eq_none.2 fun x mem => by simpa using before x mem
  exact ⟨earlier, gap, item, later, split, by simpa using named, first⟩

theorem first_of_find? {i : Nat} {items : List SpacedItem} {a : Attribute}
    (h : (itemAttributes i items).find? (·.name = name) = some a) :
    ∃ earlier gap item later, items = earlier ++ (gap, item) :: later ∧
      lookup? earlier name = none ∧
      item.attribute? (i + (itemsText earlier).length + gap.length) = some a := by
  have present : lookup? items name ≠ none := by
    rw [← classify_itemAttributes i, h]
    nofun
  obtain ⟨earlier, gap, item, later, split, named, first⟩ := exists_first_of_present present
  refine ⟨earlier, gap, item, later, split, first, ?_⟩
  rw [← find?_first first named later, ← split, h]

namespace LooseTag.Stands

variable {tag : LooseTag} (stands : tag.Stands)

include stands

theorem lookup_in (p s name : Bytes) :
    ((tag.reading p.length).attribute? (p ++ (tag.text ++ s)) name).map (·.classify) =
      lookup? tag.items name := by
  rw [OpenTag.attribute?, stands.attributes_in]
  exact classify_itemAttributes _ _ _

theorem readAttribute?_in {p s id : Bytes}
    (located : locateTag? (p ++ (tag.text ++ s)) id = some (tag.reading p.length)) (name : Bytes) :
    readAttribute? (p ++ (tag.text ++ s)) id name = lookup? tag.items name := by
  rw [readAttribute?, located]
  exact stands.lookup_in p s name

end LooseTag.Stands

namespace TagText

theorem lookup_in (tag : TagText) (p s name : Bytes) :
    ((tag.reading p.length).attribute? (p ++ (tag.text ++ s)) name).map (·.classify) =
      lookup? tag.items name :=
  tag.stands_loose.lookup_in p s name

theorem readAttribute?_in {tag : TagText} {p s id : Bytes}
    (located : locateTag? (p ++ (tag.text ++ s)) id = some (tag.reading p.length)) (name : Bytes) :
    readAttribute? (p ++ (tag.text ++ s)) id name = lookup? tag.items name :=
  tag.stands_loose.readAttribute?_in located name

end TagText

structure Slot (tag : TagText) where
  earlier : List SpacedItem
  old : List SpacedItem
  later : List SpacedItem
  split : tag.items = earlier ++ (old ++ later)

namespace Slot

variable {tag : TagText} (slot : Slot tag)

/-- The tag with one item in place of the part. -/
def put (x : SpacedItem) (valid : SpacedItem.Valid x) : TagText where
  name := tag.name
  items := slot.earlier ++ x :: slot.later
  gap := tag.gap
  slashed := tag.slashed
  isName := tag.isName
  valid := fun y mem => by
    have old (h : y ∈ slot.earlier ∨ y ∈ slot.later) : SpacedItem.Valid y :=
      tag.valid y (by
        rw [slot.split, List.mem_append, List.mem_append]
        exact h.imp_right .inr)
    simp only [List.mem_append, List.mem_cons] at mem
    obtain before | rfl | behind := mem
    · exact old (.inl before)
    · exact valid
    · exact old (.inr behind)
  blank := tag.blank

def front (p : Bytes) : Bytes := (p ++ Byte.less :: tag.name) ++ itemsText slot.earlier

def back (s : Bytes) : Bytes :=
  itemsText slot.later ++ (tag.gap ++ (tagEnding tag.slashed ++ s))

variable (p s : Bytes)

theorem text_eq :
    p ++ (tag.text ++ s) = slot.front p ++ (itemsText slot.old ++ slot.back s) := by
  simp only [TagText.text_around, slot.split, itemsText_append, front, back, List.append_assoc]

theorem text_put {x : SpacedItem} (valid : SpacedItem.Valid x) :
    p ++ ((slot.put x valid).text ++ s) =
      slot.front p ++ (x.1 ++ (x.2.text ++ slot.back s)) := by
  obtain ⟨gap, item⟩ := x
  simp only [TagText.text_around, put, itemsText_append, itemsText, front, back,
    List.append_assoc]

theorem length_front :
    (slot.front p).length = p.length + 1 + tag.name.length + (itemsText slot.earlier).length := by
  simp only [front, List.length_append, List.length_cons]
  omega

/-- One item is written anew: the range of the patch is `w` in `x ++ w ++ y`. -/
theorem apply_put {new : SpacedItem} (valid : SpacedItem.Valid new) {q : Patch} {x w y : Bytes}
    (before : itemsText slot.old = x ++ (w ++ y))
    (after : new.1 ++ new.2.text = x ++ (q.replacement ++ y))
    (start : q.start =
      p.length + 1 + tag.name.length + (itemsText slot.earlier).length + x.length)
    (stop : q.stop = q.start + w.length) :
    q.apply (p ++ (tag.text ++ s)) = p ++ ((slot.put new valid).text ++ s) := by
  have whole : p ++ (tag.text ++ s) = (slot.front p ++ x) ++ (w ++ (y ++ slot.back s)) := by
    simp only [slot.text_eq, before, List.append_assoc]
  have reached : q.start = (slot.front p ++ x).length := by
    rw [start, List.length_append, slot.length_front]
  rw [whole, Patch.apply_between reached stop, slot.text_put, ← List.append_assoc new.1, after]
  simp only [List.append_assoc]

end Slot

/-- An attribute of a tag as written is set to a value that is written as it is. -/
structure Setting (tag : TagText) (name value : Bytes) where
  slot : Slot tag
  gap : Bytes
  before : Bytes
  after : Bytes
  encoding : Encoding
  verbatim : encoding.Verbatim value
  valid : SpacedItem.Valid (gap, .valued name before after (encoding.delimit value))
  first : lookup? slot.earlier name = none
  old : ∀ x ∈ slot.old, x.2.name? = some name

namespace Setting

variable {tag : TagText} {value : Bytes} (setting : Setting tag name value)

def item : Item :=
  .valued name setting.before setting.after (setting.encoding.delimit value)

theorem valid_item : SpacedItem.Valid (setting.gap, setting.item) := setting.valid

def result : TagText := setting.slot.put (setting.gap, setting.item) setting.valid_item

theorem lookup_name :
    lookup? setting.result.items name = some (.literal setting.encoding value) := by
  change lookup? (_ ++ (setting.gap, setting.item) :: _) name = _
  rw [lookup?_append, setting.first, Option.none_or, lookup?_cons_of_eq rfl]
  simp only [item, Item.raw?, AttributeValue.classify, setting.verbatim.read]

theorem lookup_other {other : Bytes} (ne : other ≠ name) :
    lookup? setting.result.items other = lookup? tag.items other := by
  have passed : lookup? setting.slot.old other = none :=
    lookup?_eq_none.2 fun x mem same => ne (Option.some.inj ((setting.old x mem) ▸ same)).symm
  have unnamed : (setting.gap, setting.item).2.name? ≠ some other :=
    fun same => ne (Option.some.inj same).symm
  change lookup? (_ ++ (setting.gap, setting.item) :: _) other = _
  rw [setting.slot.split, lookup?_append, lookup?_append, lookup?_append, passed, Option.none_or,
    lookup?_cons_of_ne unnamed]

/-- Nothing was there before, so the item was added. -/
theorem old_eq_nil (absent : lookup? tag.items name = none) : setting.slot.old = [] := by
  rw [List.eq_nil_iff_forall_not_mem]
  intro x mem
  refine lookup?_eq_none.1 absent x ?_ (setting.old x mem)
  rw [setting.slot.split]
  exact List.mem_append_right _ (List.mem_append_left _ mem)

variable (p s : Bytes)

def text : Bytes := p ++ (setting.result.text ++ s)

theorem attribute_eq :
    (setting.result.reading p.length).attribute? (setting.text p s) name =
      setting.item.attribute? (p.length + 1 + tag.name.length +
        (itemsText setting.slot.earlier).length + setting.gap.length) := by
  rw [OpenTag.attribute?, text, TagText.attributes_in]
  exact find?_first setting.first rfl setting.slot.later _

end Setting

theorem Encoding.Verbatim.isValue {encoding : Encoding} {value : Bytes}
    (verbatim : encoding.Verbatim value) (harmless : Harmless value) :
    IsValue (encoding.delimit value) := by
  have plain : Byte.backslash ∉ encoding.delimit value := by
    have opens : Byte.backslash ∉ encoding.opening := by cases encoding <;> decide
    have closes : Byte.backslash ∉ encoding.closing := by cases encoding <;> decide
    have within : Byte.backslash ∉ value := harmless.not_mem (by decide)
    simp [delimit, opens, closes, within]
  rw [← verbatim.again] at plain ⊢
  exact isValue_format plain

section

variable {tag : TagText} {value p s : Bytes}

/-- An item of the tag with another value. -/
theorem Slot.put_value {earlier later : List SpacedItem} {gap : Bytes} {item : Item}
    {a : Attribute} (split : tag.items = earlier ++ ([(gap, item)] ++ later))
    (found : item.attribute? (p.length + 1 + tag.name.length + (itemsText earlier).length +
      gap.length) = some a) :
    ∃ before after, ∀ raw, IsValue raw →
      ∃ valid : SpacedItem.Valid (gap, .valued a.name before after raw),
        (a.replaceValue raw).apply (p ++ (tag.text ++ s)) =
          p ++ ((Slot.put ⟨earlier, [(gap, item)], later, split⟩ _ valid).text ++ s) := by
  obtain ⟨apart, blank, isItem⟩ := tag.valid (gap, item) (by simp [split])
  let slot : Slot tag := ⟨earlier, [(gap, item)], later, split⟩
  cases item with
  | spread body => cases found
  | flag name =>
      cases found
      refine ⟨[], [], fun raw isValue => ?_⟩
      have valid : SpacedItem.Valid (gap, .valued name [] [] raw) :=
        ⟨apart, blank, isItem, .nil, .nil, isValue⟩
      refine ⟨valid, slot.apply_put p s (x := gap ++ name) (w := []) (y := []) valid ?_ ?_ ?_ rfl⟩
      · simp [slot, itemsText, Item.text]
      · simp [Item.text, Attribute.replaceValue, Patch.insertion]
      · simp only [slot, Attribute.replaceValue, Patch.insertion, Attribute.nameEnd,
          List.length_append]
        omega
  | valued name before after old =>
      cases found
      obtain ⟨isName, hbefore, hafter, -⟩ := isItem
      refine ⟨before, after, fun raw isValue => ?_⟩
      have valid : SpacedItem.Valid (gap, .valued name before after raw) :=
        ⟨apart, blank, isName, hbefore, hafter, isValue⟩
      refine ⟨valid, slot.apply_put p s (x := gap ++ (name ++ (before ++ Byte.equals :: after)))
        (w := old) (y := []) valid ?_ ?_ ?_ rfl⟩
      · simp [slot, itemsText, Item.text]
      · simp [Item.text, Attribute.replaceValue]
      · simp only [slot, Attribute.replaceValue, List.length_append, List.length_cons]
        omega

/-- An attribute that is there gets the value in its place. -/
theorem Setting.ofVerbatim {used : Encoding} (verbatim : used.Verbatim value)
    (isValue : IsValue (used.delimit value)) {a : Attribute}
    (present : (tag.reading p.length).attribute? (p ++ (tag.text ++ s)) name = some a) :
    ∃ setting : Setting tag name value, setting.encoding = used ∧ setting.slot.old ≠ [] ∧
      (a.replaceValue (used.delimit value)).apply (p ++ (tag.text ++ s)) = setting.text p s := by
  rw [OpenTag.attribute?, tag.attributes_in] at present
  obtain ⟨earlier, gap, item, later, split, first, found⟩ := first_of_find? present
  obtain ⟨before, after, put⟩ := Slot.put_value (s := s) split found
  obtain ⟨valid, text⟩ := put _ isValue
  obtain rfl : a.name = name := by simpa using List.find?_some present
  have old : ∀ x ∈ [(gap, item)], x.2.name? = some a.name :=
    List.forall_mem_singleton.2 (Item.attribute?_eq_some found).1
  exact ⟨⟨⟨earlier, [(gap, item)], later, split⟩, gap, before, after, used, verbatim, valid, first,
    old⟩, rfl, List.cons_ne_nil _ _, text⟩

theorem Setting.ofReplace (harmless : Encoding.Harmless value) {a : Attribute}
    (present : (tag.reading p.length).attribute? (p ++ (tag.text ++ s)) name = some a)
    (encoding : Encoding) :
    ∃ setting : Setting tag name value,
      (a.replaceValue (encoding.format value)).apply (p ++ (tag.text ++ s)) =
        setting.text p s := by
  obtain ⟨used, verbatim, written⟩ := harmless.written encoding
  obtain ⟨setting, -, -, text⟩ := Setting.ofVerbatim verbatim (verbatim.isValue harmless) present
  exact ⟨setting, by rw [written, text]⟩

/-- An attribute that is not there is put behind the marker. -/
theorem Setting.ofInsert (isName : IsItemName name)
    (verbatim : Encoding.doubleQuoted.Verbatim value)
    (isValue : IsValue (Encoding.doubleQuoted.delimit value))
    (marked : lookup? tag.items Marker.attributeName ≠ none)
    (absent : lookup? tag.items name = none) :
    ∃ setting : Setting tag name value, setting.encoding = .doubleQuoted ∧
      ((tag.reading p.length).insertAttribute (p ++ (tag.text ++ s))
        (writeAttribute name value)).apply (p ++ (tag.text ++ s)) = setting.text p s := by
  have valid : SpacedItem.Valid
      ([Byte.space], .valued name [] [] (Encoding.doubleQuoted.delimit value)) :=
    ⟨List.cons_ne_nil _ _, show AllBlank [Byte.space] by decide, isName, .nil, .nil, isValue⟩
  rw [← classify_itemAttributes (p.length + 1 + tag.name.length), Ne, Option.map_eq_none_iff, ← Ne,
    Option.ne_none_iff_exists'] at marked
  obtain ⟨marker, present⟩ := marked
  obtain ⟨earlier, gap, item, later, split, -, found⟩ := first_of_find? present
  have split' : tag.items = (earlier ++ [(gap, item)]) ++ ([] ++ later) := by simp [split]
  let slot : Slot tag := ⟨earlier ++ [(gap, item)], [], later, split'⟩
  have first : lookup? slot.earlier name = none := by
    rw [split', lookup?_append, Option.or_eq_none_iff] at absent
    exact absent.1
  refine ⟨⟨slot, [Byte.space], [], [], .doubleQuoted, verbatim, valid, first, nofun⟩, rfl, ?_⟩
  have place : (tag.reading p.length).attribute? (p ++ (tag.text ++ s)) Marker.attributeName =
      some marker := by
    rw [OpenTag.attribute?, tag.attributes_in]
    exact present
  rw [OpenTag.insertAttribute, place]
  refine slot.apply_put p s (x := []) (w := []) (y := []) valid rfl ?_ ?_ rfl
  · simp [Item.text, Patch.insertion, writeAttribute, verbatim.again]
  · simp only [slot, Patch.insertion, stop_attribute? found, itemsText_append,
      itemsText_single, List.length_append, List.length_nil]
    omega

end

namespace Edit

variable {tag : TagText} {value id p s : Bytes}

/-- What an accepted edit of a tag as written does. -/
theorem setAttribute_setting {patches : List Patch} (harmless : Encoding.Harmless value)
    (located : locateTag? (p ++ (tag.text ++ s)) id = some (tag.reading p.length))
    (marked : lookup? tag.items Marker.attributeName ≠ none)
    (edited : setAttribute (p ++ (tag.text ++ s)) id name value = .ok patches) :
    name ≠ Marker.attributeName ∧ isAttributeName name = true ∧
      ∃ setting : Setting tag name value,
        (p ++ (tag.text ++ s)).patch patches = setting.text p s := by
  rw [setAttribute] at edited
  split at edited
  · cases edited
  next unmarked =>
    split at edited
    · cases edited
    next named =>
      have isName := isItemName_of_isAttributeName (Bool.of_not_eq_false named)
      refine ⟨unmarked, Bool.of_not_eq_false named, ?_⟩
      obtain ⟨tag', found, edited⟩ := bind_eq_ok.1 edited
      obtain rfl : tag.reading p.length = tag' :=
        Option.some.inj (located.symm.trans (findTag_eq_ok.1 found))
      split at edited
      next absent =>
        cases edited
        have nowhere : lookup? tag.items name = none := by
          rw [← tag.lookup_in p s, absent]
          rfl
        have verbatim := harmless.verbatim_double
        obtain ⟨setting, -, text⟩ :=
          Setting.ofInsert isName verbatim (verbatim.isValue harmless) marked nowhere
        exact ⟨setting, text⟩
      next a present =>
        split at edited
        · cases edited
          exact Setting.ofReplace harmless present _
        · cases edited
          exact Setting.ofReplace harmless present _
        · cases edited

end Edit

end MarkupEdit
