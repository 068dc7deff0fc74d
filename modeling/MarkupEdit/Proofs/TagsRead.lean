import MarkupEdit.Proofs.AttributeOrder
import MarkupEdit.Proofs.ClassesWrittenBack

/-!
What is read of a tag as it was written, in any text. The end of the tag and its attributes are
found by two scans with rules of their own; both give back what was written, so no text inside a
value or a spread block is taken for an attribute, or for the end of the tag.
-/

namespace MarkupEdit

namespace Item

/-- The name and the value of the attribute that an item is, as written. -/
def written? (item : Item) : Option (Bytes × Option Bytes) := item.name?.map (·, item.raw?)

theorem map_attribute? (i : Nat) (item : Item) :
    (item.attribute? i).map (fun a => (a.name, a.raw)) = item.written? := by
  cases item with
  | spread body => rfl
  | flag name => rfl
  | valued name before after value => rfl

theorem Loose.length_pos {item : Item} (h : item.Loose) : 0 < item.text.length := by
  obtain ⟨c, t, split, -⟩ := h.head
  rw [split, List.length_cons]
  exact Nat.succ_pos _

end Item

variable {i : Nat} {items : List SpacedItem} {a : Attribute}

theorem asWritten_items (i : Nat) (items : List SpacedItem) :
    asWritten (itemAttributes i items) = items.filterMap fun x => x.2.written? := by
  induction items generalizing i with
  | nil => rfl
  | cons x rest ih =>
      obtain ⟨gap, item⟩ := x
      rw [itemAttributes, asWritten_append, ih, List.filterMap_cons,
        ← Item.map_attribute? (i + gap.length)]
      cases item.attribute? (i + gap.length) with
      | none => rfl
      | some a => rfl

/-- The attributes of a list of items start inside its text. -/
theorem start_of_mem (loose : ∀ x ∈ items, SpacedItem.Loose x) (mem : a ∈ itemAttributes i items) :
    i ≤ a.start ∧ a.start < i + (itemsText items).length := by
  obtain ⟨earlier, gap, item, later, rfl, found⟩ := mem_itemAttributes.1 mem
  have start := start_attribute? found
  have pos : 0 < item.text.length := (loose (gap, item) (by simp)).item.length_pos
  simp only [itemsText_append, itemsText, List.length_append]
  omega

/-- An attribute that starts within an item is that item. -/
theorem attribute?_of_start_within {earlier later : List SpacedItem} {gap : Bytes} {item : Item}
    (loose : ∀ x ∈ earlier ++ (gap, item) :: later, SpacedItem.Loose x)
    (mem : a ∈ itemAttributes i (earlier ++ (gap, item) :: later))
    (first : i + (itemsText earlier).length + gap.length ≤ a.start)
    (last : a.start < i + (itemsText earlier).length + gap.length + item.text.length) :
    item.attribute? (i + (itemsText earlier).length + gap.length) = some a := by
  obtain ⟨front, behind⟩ := List.forall_mem_append.1 loose
  rw [itemAttributes_append, itemAttributes, List.mem_append, List.mem_append,
    Option.mem_toList] at mem
  rcases mem with before | here | after
  · have bounds := start_of_mem front before
    omega
  · exact here
  · have bounds := start_of_mem (List.forall_mem_cons.1 behind).2 after
    omega

/-- What was read of items that stand behind `front` in a text: each attribute with the name and
the value that were written, where they were written, and nothing else. -/
structure ItemsRead (text front : Bytes) (items : List SpacedItem) (read : List Attribute) :
    Prop where
  written : asWritten read = items.filterMap fun x => x.2.written?
  ordered : read.Pairwise fun a b => a.stop ≤ b.start
  mem_iff : ∀ a, a ∈ read ↔ ∃ earlier gap item later, items = earlier ++ (gap, item) :: later ∧
    item.attribute? (front ++ (itemsText earlier ++ gap)).length = some a
  name : ∀ a ∈ read, text.slice a.start a.nameEnd = a.name
  value : ∀ a ∈ read, ∀ v, a.value = some v →
    text.slice v.start (v.start + v.text.length) = v.text
  /-- Nothing but the item itself starts within the text of an item. -/
  within : ∀ earlier gap item later, items = earlier ++ (gap, item) :: later →
    ∀ a ∈ read, (front ++ (itemsText earlier ++ gap)).length ≤ a.start →
      a.start < (front ++ (itemsText earlier ++ (gap ++ item.text))).length →
      item.attribute? (front ++ (itemsText earlier ++ gap)).length = some a

/-- A tag is found as it was written, wherever it stands, and its attributes are the items of it
that are no spread blocks, in their order and at their places. -/
theorem tag_read_exactly (tag : TagText) (p s : Bytes) :
    Units.openTag? (p ++ (tag.text ++ s)) p.length = some (tag.reading p.length) ∧
      (tag.reading p.length).stop = (p ++ tag.text).length ∧
      ItemsRead (p ++ (tag.text ++ s)) (p ++ Byte.less :: tag.name) tag.items
        ((tag.reading p.length).attributes (p ++ (tag.text ++ s))) := by
  have opened := tag.openTag?_in p s
  have sound := sound_of_openTag? opened
  have attributes := tag.attributes_in p s
  have offset (u : Bytes) : ((p ++ Byte.less :: tag.name) ++ u).length =
      p.length + 1 + tag.name.length + u.length := by
    rw [List.length_append, List.length_append, List.length_cons]
    omega
  have itemOffset (earlier : List SpacedItem) (gap : Bytes) :
      ((p ++ Byte.less :: tag.name) ++ (itemsText earlier ++ gap)).length =
        p.length + 1 + tag.name.length + (itemsText earlier).length + gap.length := by
    rw [offset, List.length_append, Nat.add_assoc _ (itemsText earlier).length]
  refine ⟨opened, ?_, ?_⟩
  · rw [tag.stop_reading, List.length_append]
  · exact {
      written := by rw [attributes, TagText.written, asWritten_items]
      ordered := OpenTag.attributes_ordered _ _
      mem_iff := fun a => by
        simp only [attributes, TagText.written, mem_itemAttributes, itemOffset]
      name := fun a mem => (sound.attribute mem).name
      value := fun a mem v valued => ((sound.attribute mem).value v valued).text
      within := by
        intro earlier gap item later split a mem first last
        have loose : ∀ x ∈ earlier ++ (gap, item) :: later, SpacedItem.Loose x :=
          fun x hx => (tag.valid x (split ▸ hx)).loose
        rw [attributes, TagText.written, split] at mem
        rw [itemOffset] at first ⊢
        rw [offset, List.length_append, List.length_append] at last
        exact attribute?_of_start_within loose mem first (by omega) }

/-- A value may hold what would be an attribute, or the end of a tag, outside of it. -/
example :
    let text := utf8 "a <p \x7b...b: 'c=>'\x7d title='d=\"e\"' f = \x7b<i g='\x7d'/>\x7d h=i j/>"
    (Units.openTag? text 2).map (fun tag => asWritten (tag.attributes text)) =
      some [(utf8 "title", some (utf8 "'d=\"e\"'")),
        (utf8 "f", some (utf8 "\x7b<i g='\x7d'/>\x7d")), (utf8 "h", some (utf8 "i")),
        (utf8 "j", none)] := by
  decide +kernel

end MarkupEdit
