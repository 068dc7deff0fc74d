import Mathlib.Data.List.Nodup
import MarkupEdit.Proofs.AttributeRoundTrip

/-!
An attribute of a tag as written that is taken away. The white space in front of it goes too, so
the part behind it comes to stand at the part before it. All other attributes are read as before
exactly if neither part goes on with the other.
-/

namespace MarkupEdit

theorem lookup?_filter {name other : Bytes} (ne : other ≠ name) (items : List SpacedItem) :
    lookup? (items.filter fun x => x.2.name? ≠ some name) other = lookup? items other := by
  induction items with
  | nil => rfl
  | cons x rest ih =>
      by_cases here : x.2.name? = some name
      · have passed : x.2.name? ≠ some other := by
          rw [here]
          exact fun same => ne (Option.some.inj same).symm
        rw [List.filter_cons_of_neg (by simpa using here), ih, lookup?_cons_of_ne passed]
      · rw [List.filter_cons_of_pos (by simpa using here)]
        by_cases found : x.2.name? = some other
        · rw [lookup?_cons_of_eq found, lookup?_cons_of_eq found]
        · rw [lookup?_cons_of_ne found, lookup?_cons_of_ne found, ih]

theorem lookup?_filter_self (name : Bytes) (items : List SpacedItem) :
    lookup? (items.filter fun x => x.2.name? ≠ some name) name = none :=
  lookup?_eq_none.2 fun x mem => by simpa using (List.mem_filter.1 mem).2

namespace LooseTag

/-- No two attributes of the tag have one name. -/
def Distinct (tag : LooseTag) : Prop := (tag.items.filterMap (·.2.name?)).Nodup

instance (tag : LooseTag) : Decidable tag.Distinct :=
  inferInstanceAs (Decidable (tag.items.filterMap (·.2.name?)).Nodup)

def without (tag : LooseTag) (name : Bytes) : LooseTag where
  name := tag.name
  items := tag.items.filter fun x => x.2.name? ≠ some name
  gap := tag.gap
  slashed := tag.slashed
  isName := tag.isName
  valid := fun x mem => tag.valid x (List.mem_filter.1 mem).1
  blank := tag.blank

variable {tag : LooseTag} {name : Bytes}

theorem without_of_absent (absent : lookup? tag.items name = none) : tag.without name = tag := by
  have same : tag.items.filter (fun x => x.2.name? ≠ some name) = tag.items :=
    List.filter_eq_self.2 fun x mem => by simpa using lookup?_eq_none.1 absent x mem
  cases tag
  simp only [without, mk.injEq, and_true, true_and]
  exact same

/-- An item has its name alone. -/
theorem Distinct.alone (distinct : tag.Distinct) {earlier later : List SpacedItem}
    {x : SpacedItem} (split : tag.items = earlier ++ x :: later) (named : x.2.name? = some name) :
    lookup? earlier name = none ∧ lookup? later name = none := by
  simp only [Distinct, split, List.filterMap_append, List.filterMap_cons, named,
    List.nodup_middle, List.nodup_cons, List.mem_append, not_or] at distinct
  have absent {items : List SpacedItem} (unused : name ∉ items.filterMap (·.2.name?)) :
      lookup? items name = none :=
    lookup?_eq_none.2 fun x mem same => unused (List.mem_filterMap.2 ⟨x, mem, same⟩)
  exact ⟨absent distinct.1.1, absent distinct.1.2⟩

theorem items_without (distinct : tag.Distinct) {earlier later : List SpacedItem}
    {x : SpacedItem} (split : tag.items = earlier ++ x :: later) (named : x.2.name? = some name) :
    (tag.without name).items = earlier ++ later := by
  obtain ⟨before, behind⟩ := distinct.alone split named
  have kept {items : List SpacedItem} (absent : lookup? items name = none) :
      items.filter (fun x => x.2.name? ≠ some name) = items :=
    List.filter_eq_self.2 fun x mem => by simpa using lookup?_eq_none.1 absent x mem
  change tag.items.filter _ = _
  rw [split, List.filter_append, List.filter_cons_of_neg (by simpa using named), kept before,
    kept behind]

end LooseTag

section

variable {tag : LooseTag} (stands : tag.Stands) (distinct : tag.Distinct) {p s id name : Bytes}

include stands distinct

/-- Taking away an attribute takes one item from the tag. -/
theorem LooseTag.apply_removeAttribute {a : Attribute}
    (present : (tag.reading p.length).attribute? (p ++ (tag.text ++ s)) name = some a) :
    ((tag.reading p.length).removeAttribute (p ++ (tag.text ++ s)) a).apply
      (p ++ (tag.text ++ s)) = p ++ ((tag.without name).text ++ s) := by
  rw [OpenTag.attribute?, stands.attributes_in] at present
  obtain ⟨earlier, gap, item, later, split, -, found⟩ := first_of_find? present
  have named : item.name? = some name := by
    rw [(Item.attribute?_eq_some found).1]
    simpa using List.find?_some present
  have front : ((p ++ Byte.less :: tag.name) ++ itemsText earlier).length =
      p.length + 1 + tag.name.length + (itemsText earlier).length := by
    simp only [List.length_append, List.length_cons]
    omega
  have whole : p ++ (tag.text ++ s) = ((p ++ Byte.less :: tag.name) ++ itemsText earlier) ++
      ((gap ++ item.text) ++ (itemsText later ++ (tag.gap ++ (tagEnding tag.slashed ++ s)))) := by
    simp only [text_around, split, itemsText_append, itemsText, List.append_assoc]
  rw [removeAttribute_item split found, whole, Patch.apply_between (w := gap ++ item.text)]
  · have name' : (tag.without name).name = tag.name := rfl
    have gap' : (tag.without name).gap = tag.gap := rfl
    have slashed' : (tag.without name).slashed = tag.slashed := rfl
    simp only [text_around, items_without distinct split named, itemsText_append, name', gap',
      slashed', Patch.removal, List.append_assoc, List.nil_append]
  · exact front.symm
  · simp only [Patch.removal, List.length_append]
    omega

theorem removeAttribute_text {new : Bytes}
    (located : locateTag? (p ++ (tag.text ++ s)) id = some (tag.reading p.length))
    (edited : (Edit.removeAttribute (p ++ (tag.text ++ s)) id name).map
      (p ++ (tag.text ++ s)).patch = .ok new) :
    name ≠ Marker.attributeName ∧ new = p ++ ((tag.without name).text ++ s) := by
  obtain ⟨patches, planned, rfl⟩ := map_eq_ok.1 edited
  rw [Edit.removeAttribute] at planned
  split at planned
  · cases planned
  next unmarked =>
    refine ⟨unmarked, ?_⟩
    rw [findTag_eq_ok.2 located] at planned
    simp only [bind, Except.bind] at planned
    split at planned
    next absent =>
      cases planned
      have none := stands.lookup_in p s name
      rw [absent] at none
      rw [LooseTag.without_of_absent none.symm]
      rfl
    next a present =>
      split at planned
      · cases planned
      · cases planned
        exact tag.apply_removeAttribute stands distinct present

end

theorem Edge.behind_concat (edge : Edge) (earlier : List SpacedItem) (x : SpacedItem) :
    edge.behind (earlier ++ [x]) = x.2.edge := by
  induction earlier generalizing edge with
  | nil => rfl
  | cons y rest ih => exact ih y.2.edge

/-- The last byte of a part that ends by itself is none of the name of a marker. -/
theorem getLast?_closed {items : List SpacedItem} (valid : ∀ x ∈ items, SpacedItem.Loose x)
    (closed : Edge.name.behind items = .closed) :
    ∃ c, (itemsText items).getLast? = some c ∧ c ∉ Marker.attributeName := by
  cases items using List.reverseRecOn with
  | nil => cases closed
  | append_singleton earlier x =>
      obtain ⟨gap, item⟩ := x
      rw [Edge.behind_concat] at closed
      have loose : item.Loose := (valid _ (List.mem_append_right _ List.mem_cons_self)).item
      have last : ∃ c, item.text.getLast? = some c ∧ c ∉ Marker.attributeName := by
        cases item with
        | spread body => exact ⟨Byte.closeBrace, List.getLast?_concat, by decide⟩
        | flag name => cases closed
        | valued name before after v =>
            obtain ⟨-, -, -, literal | ⟨ne, word⟩⟩ := loose
            · have text : (Item.valued name before after v).text =
                  (name ++ (before ++ Byte.equals :: after)) ++ v := by
                simp [Item.text]
              have last : ∃ c, v.getLast? = some c ∧ c ∉ Marker.attributeName := by
                cases literal with
                | @quoted quote b hq hb =>
                    refine ⟨quote, List.getLast?_concat, ?_⟩
                    simp only [Byte.isQuote, Bool.or_eq_true, beq_iff_eq] at hq
                    rcases hq with rfl | rfl <;> decide
                | backticks => exact ⟨_, List.getLast?_concat, by decide⟩
                | braces => exact ⟨_, List.getLast?_concat, by decide⟩
              obtain ⟨c, last, other⟩ := last
              exact ⟨c, by rw [text, List.getLast?_append, last, Option.some_or], other⟩
            · rw [edge_of_word word] at closed
              cases closed
      obtain ⟨c, last, other⟩ := last
      refine ⟨c, ?_, other⟩
      rw [itemsText_append, itemsText_single, List.getLast?_append, List.getLast?_append, last,
        Option.some_or, Option.some_or]

/-- A marker that does not stand in one of two parts alone begins with the end of the first one,
inside its name, and goes on with the second one. -/
theorem split_marker {id w z y back : Bytes} (noEquals : Byte.equals ∉ id)
    (first : EqualsFirst back) (marker : Marker.ofId id = w ++ z) (ne : z ≠ [])
    (behind : back = z ++ y) :
    ∃ rest, Marker.attributeName = w ++ rest ∧ ∃ t, back = rest ++ Byte.equals :: t := by
  obtain ⟨z, c, rfl⟩ : ∃ z' c, z = z' ++ [c] := ⟨_, _, (List.dropLast_concat_getLast ne).symm⟩
  have text : Marker.ofId id =
      (Marker.attributeName ++ Byte.equals :: Byte.doubleQuote :: id) ++ [Byte.doubleQuote] := by
    simpa using ofId_append id []
  rw [text, ← List.append_assoc] at marker
  obtain ⟨inner, last⟩ := List.append_inj' marker rfl
  obtain rfl : Byte.doubleQuote = c := List.singleton_inj.1 last
  have equals : Byte.equals ∈ z := first z y (by rw [behind]; simp)
  obtain ⟨rest, name, tail⟩ | ⟨rest, front, tail⟩ := List.append_eq_append_iff.1 inner
  · -- All of the name and more would belong to the first part.
    cases rest with
    | nil =>
        rw [List.nil_append] at tail
        refine ⟨[], by simpa using name.symm, Byte.doubleQuote :: id ++ Byte.doubleQuote :: y, ?_⟩
        rw [behind, ← tail]
        simp
    | cons d rest =>
        obtain ⟨-, tail⟩ := List.cons.inj tail
        have mem : Byte.equals ∈ Byte.doubleQuote :: id := by
          rw [tail]
          exact List.mem_append_right _ equals
        rcases List.mem_cons.1 mem with quote | mem
        · exact absurd quote (by decide)
        · exact absurd mem noEquals
  · refine ⟨rest, front, Byte.doubleQuote :: id ++ Byte.doubleQuote :: y, ?_⟩
    rw [behind, tail]
    simp

/-- No item begins with `=`. -/
theorem head?_ne_equals {items : List SpacedItem} (valid : ∀ x ∈ items, SpacedItem.Loose x)
    (ne : items ≠ []) (s : Bytes) : (itemsText items ++ s).head? ≠ some Byte.equals := by
  obtain ⟨⟨gap, item⟩, rest, rfl⟩ := List.exists_cons_of_ne_nil ne
  obtain ⟨blank, loose⟩ := valid _ List.mem_cons_self
  obtain ⟨c, t, text, first⟩ := loose.head
  have text : item.text = c :: t := text
  cases gap with
  | nil =>
      rw [itemsText, text]
      rintro ⟨⟩
      revert first
      decide
  | cons d gap =>
      rintro ⟨⟩
      exact absurd (blank Byte.equals List.mem_cons_self) (by decide)

/-- Two parts that are kept apart do not make up the name of a marker. -/
theorem not_crossed {earlier later : List SpacedItem}
    (valid : ∀ x ∈ earlier ++ later, SpacedItem.Loose x) (ne : later ≠ [])
    (separate : Separate .name (earlier ++ later)) {u x w s t rest : Bytes} {d : UInt8}
    (front : u ++ itemsText earlier = x ++ (w ++ [d]))
    (back : itemsText later ++ s = rest ++ Byte.equals :: t)
    (name : Marker.attributeName = (w ++ [d]) ++ rest) : False := by
  obtain ⟨hearlier, hlater⟩ := List.forall_mem_append.1 valid
  obtain ⟨-, apart⟩ := separate_append.1 separate
  have noEquals := head?_ne_equals hlater ne s
  cases rest with
  | nil => exact noEquals (by rw [back]; rfl)
  | cons c rest =>
      have goesOn : (Edge.name.behind earlier).goesOn c = false := by
        obtain ⟨y, later, rfl⟩ := List.exists_cons_of_ne_nil ne
        exact apart.head (hlater y List.mem_cons_self).item (by rw [back]; rfl)
      have byte : c ∈ Marker.attributeName := by
        rw [name]
        exact List.mem_append_right _ List.mem_cons_self
      cases edge : Edge.name.behind earlier with
      | name | flag | word =>
          have all : ∀ b ∈ Marker.attributeName, isNameByte b = true ∧
              Attribute.isAttributeNameByte b = true ∧ Byte.isBlank b = false := by
            decide +kernel
          obtain ⟨isName, isAttributeName, ink⟩ := all c byte
          simp [edge, Edge.goesOn, isName, isAttributeName, ink] at goesOn
      | closed =>
          obtain ⟨e, last, other⟩ := getLast?_closed hearlier edge
          have last' := congrArg List.getLast? front
          rw [List.getLast?_append, last, ← List.append_assoc, List.getLast?_concat,
            Option.some_or] at last'
          obtain rfl := Option.some.inj last'
          exact other (by rw [name]; simp)

/-- A marker in a tag stands in front of the place where two items meet or behind it. -/
theorem LooseTag.Stands.marker_beside {tag : LooseTag} (stands : tag.Stands)
    {earlier later : List SpacedItem} (split : tag.items = earlier ++ later) (ne : later ≠ [])
    {id p s x y : Bytes} (noEquals : Byte.equals ∉ id)
    (first : EqualsFirst (itemsText later ++ (tag.gap ++ (tagEnding tag.slashed ++ s))))
    (same : p ++ (tag.text ++ s) = x ++ (Marker.ofId id ++ y)) :
    (∃ z, (p ++ Byte.less :: tag.name) ++ itemsText earlier = x ++ (Marker.ofId id ++ z)) ∨
      ∃ z, x = ((p ++ Byte.less :: tag.name) ++ itemsText earlier) ++ z ∧
        itemsText later ++ (tag.gap ++ (tagEnding tag.slashed ++ s)) =
          z ++ (Marker.ofId id ++ y) := by
  have whole : p ++ (tag.text ++ s) = ((p ++ Byte.less :: tag.name) ++ itemsText earlier) ++
      (itemsText later ++ (tag.gap ++ (tagEnding tag.slashed ++ s))) := by
    simp only [tag.text_around, split, itemsText_append, List.append_assoc]
  rw [whole] at same
  obtain ⟨z, front, behind⟩ | ⟨w, front, rest⟩ := List.append_eq_append_iff.1 same
  · exact .inr ⟨z, front, behind⟩
  obtain ⟨z, inside, -⟩ | ⟨z, marker, behind⟩ := List.append_eq_append_iff.1 rest
  · exact .inl ⟨z, by rw [front, inside]⟩
  by_cases none : z = []
  · exact .inl ⟨[], by rw [front, marker, none, List.append_nil, List.append_nil]⟩
  · obtain ⟨part, name, t, back⟩ := split_marker noEquals first marker none behind
    cases w using List.reverseRecOn with
    | nil => exact .inr ⟨[], by rw [front, List.append_nil, List.append_nil], rest.symm⟩
    | append_singleton w d =>
        exact (not_crossed (split ▸ tag.valid) ne (split ▸ stands.separate) front back name).elim

/-- Two items that stand in one list: the second one stands in front of the first or behind it. -/
theorem split_pair {α : Type} {a b : α} (ne : a ≠ b) {u v x y : List α}
    (same : u ++ a :: v = x ++ b :: y) :
    (∃ l, x = u ++ a :: l ∧ v = l ++ b :: y) ∨ ∃ l, u = x ++ b :: l ∧ y = l ++ a :: v := by
  obtain ⟨l, front, behind⟩ | ⟨l, front, behind⟩ := List.append_eq_append_iff.1 same
  · cases l with
    | nil => exact absurd (List.cons.inj behind).1 ne
    | cons c l =>
        obtain ⟨rfl, rest⟩ := List.cons.inj behind
        exact .inl ⟨l, front, rest⟩
  · cases l with
    | nil => exact absurd (List.cons.inj behind).1.symm ne
    | cons c l =>
        obtain ⟨rfl, rest⟩ := List.cons.inj behind
        exact .inr ⟨l, front, rest⟩

/-- A tag whose marker is the first one in the text is located. -/
theorem LoosePlace.locate {tag : LooseTag} (stands : tag.Stands) {id : Bytes}
    (place : LoosePlace tag id) (clear : Byte.less ∉ place.lead) (noEquals : Byte.equals ∉ id)
    {p s : Bytes}
    (first : ∀ x y, p ++ (tag.text ++ s) = x ++ (Marker.ofId id ++ y) →
      place.offset p.length ≤ x.length) :
    locateTag? (p ++ (tag.text ++ s)) id = some (tag.reading p.length) := by
  refine locateTag?_of_first (place.mem_offsets noEquals p s) (fun m mem => ?_)
    (owner?_loosePlace stands place clear p s)
  obtain ⟨x, y, same, rfl, -⟩ := stands_of_mem_offsets mem
  exact first x y same

/-- From any item of the tag on, up to its marker, the first `=` stands in front of the first
quote. -/
theorem LoosePlace.equalsFirst {tag : LooseTag} {id : Bytes} (place : LoosePlace tag id)
    (plain : ∀ x ∈ tag.items, x.2.name? ≠ none) {items : List SpacedItem}
    (inside : ∀ x ∈ items, x ∈ tag.items) (s : Bytes) :
    EqualsFirst (itemsText items ++ (place.gap ++ (Marker.ofId id ++ s))) := by
  have blank : AllBlank place.gap :=
    (tag.valid (place.gap, markerItem id) (by simp [place.split])).blank
  have marker : EqualsFirst (place.gap ++ (Marker.ofId id ++ s)) := by
    rw [ofId_append]
    exact .append (not_mem_of_blank blank (by decide)) (.append (by decide) (.equals _))
  exact .items (fun x mem => tag.valid x (inside x mem)) (fun x mem => plain x (inside x mem))
    marker

section

variable {tag new : LooseTag} {id : Bytes} (place : LoosePlace tag id)
  {earlier later : List SpacedItem} {x : SpacedItem} (split : tag.items = earlier ++ x :: later)
  (stands : new.Stands) (name : new.name = tag.name) (items : new.items = earlier ++ later)
  (clear : Byte.less ∉ place.lead) (noEquals : Byte.equals ∉ id) {p s : Bytes}
  (once : Bytes.times (Marker.ofId id) (p ++ (tag.text ++ s)) = 1)

include split stands name items clear noEquals once

/-- A marker in front of the item that goes is the first one as before. -/
theorem LoosePlace.locate_in_front {l : List SpacedItem}
    (front : earlier = place.earlier ++ (place.gap, markerItem id) :: l) :
    locateTag? (p ++ (new.text ++ s)) id = some (new.reading p.length) := by
  let place' : LoosePlace new id :=
    ⟨place.earlier, place.gap, l ++ later, by rw [items, front]; simp, place.apart⟩
  have lead : place'.lead = place.lead := by rw [lead, lead, name]
  refine place'.locate stands (by rwa [lead]) noEquals fun u y same => ?_
  by_contra before
  have whole : p ++ (new.text ++ s) =
      ((p ++ Byte.less :: place.lead) ++ (Marker.ofId id ++ itemsText l)) ++
        (itemsText later ++ (new.gap ++ (tagEnding new.slashed ++ s))) := by
    simp [LooseTag.text_around, items, front, itemsText_append, itemsText, text_markerItem,
      LoosePlace.lead, name]
  have width : (u ++ Marker.ofId id).length ≤
      ((p ++ Byte.less :: place.lead) ++ (Marker.ofId id ++ itemsText l)).length := by
    rw [offset, lead] at before
    simp only [List.length_append, List.length_cons]
    omega
  have inFront : u ++ Marker.ofId id <+:
      (p ++ Byte.less :: place.lead) ++ (Marker.ofId id ++ itemsText l) :=
    List.prefix_of_prefix_length_le ⟨y, by rw [same, List.append_assoc]⟩
      ⟨_, whole.symm⟩ width
  obtain ⟨z, kept⟩ := inFront
  have old : p ++ (tag.text ++ s) =
      ((p ++ Byte.less :: place.lead) ++ (Marker.ofId id ++ itemsText l)) ++
        (x.1 ++ (x.2.text ++ (itemsText later ++ (tag.gap ++ (tagEnding tag.slashed ++ s))))) := by
    simp [LooseTag.text_around, split, front, itemsText_append, itemsText, text_markerItem,
      LoosePlace.lead]
  rw [← kept, List.append_assoc u, List.append_assoc u, List.append_assoc (Marker.ofId id)] at old
  have here := place.offset_unique once old
  rw [offset, lead, ← offset] at before
  omega

/-- A marker behind the item that goes is the first one, as none comes up where the two parts of
the tag meet. -/
theorem LoosePlace.locate_behind (gap : new.gap = tag.gap) (slashed : new.slashed = tag.slashed)
    (plain : ∀ x ∈ tag.items, x.2.name? ≠ none)
    {l : List SpacedItem} (front : place.earlier = earlier ++ x :: l)
    (behind : later = l ++ (place.gap, markerItem id) :: place.later) :
    locateTag? (p ++ (new.text ++ s)) id = some (new.reading p.length) := by
  let place' : LoosePlace new id :=
    ⟨earlier ++ l, place.gap, place.later, by rw [items, behind]; simp, place.apart⟩
  have lead : p ++ Byte.less :: place'.lead =
      ((p ++ Byte.less :: tag.name) ++ itemsText earlier) ++ (itemsText l ++ place.gap) := by
    simp [LoosePlace.lead, place', itemsText_append, name]
  have lead_old : p ++ Byte.less :: place.lead =
      ((p ++ Byte.less :: tag.name) ++ itemsText earlier) ++
        ((x.1 ++ x.2.text) ++ (itemsText l ++ place.gap)) := by
    simp [LoosePlace.lead, front, itemsText_append, itemsText]
  have clear' : Byte.less ∉ place'.lead := by
    simp only [LoosePlace.lead, front, itemsText_append, itemsText, List.mem_append, not_or]
      at clear
    simp [LoosePlace.lead, place', itemsText_append, name, clear]
  have first : EqualsFirst (itemsText later ++ (new.gap ++ (tagEnding new.slashed ++ s))) := by
    have text : itemsText later ++ (new.gap ++ (tagEnding new.slashed ++ s)) =
        itemsText l ++ (place.gap ++ (Marker.ofId id ++ (place.trail ++ s))) := by
      simp [behind, itemsText_append, itemsText, text_markerItem, LoosePlace.trail, gap, slashed]
    rw [text]
    exact place.equalsFirst plain (fun y mem => by simp [split, behind, mem]) _
  have offset := congrArg List.length lead
  have offset_old := congrArg List.length lead_old
  rw [LoosePlace.length_front] at offset offset_old
  have old : p ++ (tag.text ++ s) = ((p ++ Byte.less :: tag.name) ++ itemsText earlier) ++
      ((x.1 ++ x.2.text) ++ (itemsText later ++ (tag.gap ++ (tagEnding tag.slashed ++ s)))) := by
    simp [LooseTag.text_around, split, itemsText_append, itemsText]
  refine place'.locate stands clear' noEquals fun u y same => ?_
  rcases stands.marker_beside items (by simp [behind]) noEquals first same with
    ⟨z, here⟩ | ⟨z, here, there⟩
  · -- The marker would stand in the old text too, in front of its own place.
    rw [name] at here
    rw [here, List.append_assoc u, List.append_assoc (Marker.ofId id)] at old
    have place_old := place.offset_unique once old
    have width := congrArg List.length here
    have pos := List.length_pos_iff.2 (ofId_ne_nil id)
    simp only [List.length_append] at offset offset_old width
    omega
  · rw [gap, slashed] at there
    rw [name] at here
    have old' : p ++ (tag.text ++ s) = (((p ++ Byte.less :: tag.name) ++ itemsText earlier) ++
        ((x.1 ++ x.2.text) ++ z)) ++ (Marker.ofId id ++ y) := by
      rw [old, there]
      simp only [List.append_assoc]
    have place_old := place.offset_unique once old'
    rw [here]
    simp only [List.length_append] at offset offset_old place_old ⊢
    omega

end

/-- The element keeps its marker when another attribute is taken away. -/
theorem LoosePlace.locate_without {tag : LooseTag} {id name p s : Bytes}
    (place : LoosePlace tag id) (distinct : tag.Distinct) (stands : (tag.without name).Stands)
    (unmarked : name ≠ Marker.attributeName) (clear : Byte.less ∉ place.lead)
    (plain : ∀ x ∈ tag.items, x.2.name? ≠ none) (noEquals : Byte.equals ∉ id)
    (once : Bytes.times (Marker.ofId id) (p ++ (tag.text ++ s)) = 1) :
    locateTag? (p ++ ((tag.without name).text ++ s)) id =
      some ((tag.without name).reading p.length) := by
  by_cases absent : lookup? tag.items name = none
  · rw [LooseTag.without_of_absent absent] at stands ⊢
    exact place.locate stands clear noEquals fun x y same =>
      Nat.le_of_eq (place.offset_unique once same).symm
  · obtain ⟨earlier, gap, item, later, split, named, -⟩ := exists_first_of_present absent
    have items := LooseTag.items_without distinct split named
    have other : (place.gap, markerItem id) ≠ (gap, item) := by
      rintro same
      obtain ⟨-, rfl⟩ := Prod.mk.inj same
      exact unmarked (Option.some.inj named).symm
    obtain ⟨l, front, behind⟩ | ⟨l, front, behind⟩ :=
      split_pair other (place.split.symm.trans split)
    · exact place.locate_in_front split stands rfl items clear noEquals once front
    · exact place.locate_behind split stands rfl items clear noEquals once rfl rfl plain front
        behind

/-- The attribute is gone, all others are read as before, and the element is where it was. -/
structure RemovesOnly (source new id name : Bytes) : Prop where
  located : ∃ before after, locate? source id = some before ∧ locate? new id = some after ∧
    after.start = before.start ∧ after.tag = before.tag
  gone : readAttribute? new id name = none
  others : ∀ other, other ≠ name → readAttribute? new id other = readAttribute? source id other

theorem LooseTag.removesOnly {tag : LooseTag} (stands : tag.Stands) {p s id name : Bytes}
    (before : locateTag? (p ++ (tag.text ++ s)) id = some (tag.reading p.length))
    (stands' : (tag.without name).Stands)
    (after : locateTag? (p ++ ((tag.without name).text ++ s)) id =
      some ((tag.without name).reading p.length)) :
    RemovesOnly (p ++ (tag.text ++ s)) (p ++ ((tag.without name).text ++ s)) id name where
  located := by
    refine ⟨(tag.reading p.length).location (p ++ (tag.text ++ s)),
      ((tag.without name).reading p.length).location (p ++ ((tag.without name).text ++ s)),
      ?_, ?_, rfl, rfl⟩
    · rw [locate?, before, Option.map_some]
    · rw [locate?, after, Option.map_some]
  gone := by
    rw [stands'.readAttribute?_in after]
    exact lookup?_filter_self name tag.items
  others other ne := by
    rw [stands'.readAttribute?_in after, stands.readAttribute?_in before]
    exact lookup?_filter ne tag.items

end MarkupEdit
