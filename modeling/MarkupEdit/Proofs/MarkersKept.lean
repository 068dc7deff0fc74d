import MarkupEdit.Proofs.TagSlots

/-!
The marker of an element when another attribute of its tag is set. What is written holds no `<`,
so the tag still owns its marker; and where the id holds no `=`, no marker of it comes to stand in
front: one that begins in the new value would have to run on through the `=` of the next item.
-/

namespace MarkupEdit

section

variable {α : Type} {c : α} {u v x y : List α}

/-- A part in front without the element is split off. -/
theorem split_front (free : c ∉ u) (same : u ++ v = x ++ c :: y) :
    ∃ x', x = u ++ x' ∧ v = x' ++ c :: y := by
  obtain ⟨x', front, rest⟩ | ⟨w, whole, rest⟩ := List.append_eq_append_iff.1 same
  · exact ⟨x', front, rest⟩
  · cases w with
    | nil => exact ⟨[], by simpa using whole.symm, by simpa using rest.symm⟩
    | cons d w =>
        obtain ⟨rfl, -⟩ := List.cons.inj rest
        exact absurd (by simp [whole]) free

/-- A part behind without the element is split off. -/
theorem split_back (free : c ∉ v) (same : u ++ v = x ++ c :: y) :
    ∃ y', y = y' ++ v ∧ u = x ++ c :: y' := by
  obtain ⟨w, -, rest⟩ | ⟨w, front, rest⟩ := List.append_eq_append_iff.1 same
  · exact absurd (by simp [rest]) free
  · cases w with
    | nil =>
        rw [List.nil_append] at rest
        exact absurd (by rw [← rest]; exact List.mem_cons_self) free
    | cons d w =>
        obtain ⟨rfl, behind⟩ := List.cons.inj rest
        exact ⟨w, behind, front⟩

end

namespace Bytes

variable {u v x y : Bytes}

/-- What stands behind the last white space. -/
theorem last_word {b c : UInt8} (hb : Byte.isBlank b = true) (hc : Byte.isBlank c = true)
    (hu : ∀ d ∈ u, Byte.isBlank d = false) (hv : ∀ d ∈ v, Byte.isBlank d = false)
    (same : x ++ b :: u = y ++ c :: v) : u = v := by
  have run {b : UInt8} {x u : Bytes} (hb : Byte.isBlank b = true)
      (hu : ∀ d ∈ u, Byte.isBlank d = false) :
      (x ++ b :: u).reverse.takeWhile (fun d => !Byte.isBlank d) = u.reverse := by
    rw [List.reverse_append, List.reverse_cons, List.append_assoc]
    apply Scan.takeWhile_append_stop
    · intro d mem
      rw [hu d (List.mem_reverse.1 mem)]
      rfl
    · rintro d ⟨⟩
      rw [hb]
      rfl
  have whole := run (x := x) hb hu
  rw [same, run hc hv] at whole
  exact (List.reverse_inj.1 whole).symm

/-- Where a text stands once, it stands in one place. -/
theorem place_unique {needle x' y' : Bytes} (ne : needle ≠ [])
    (once : times needle (x ++ (needle ++ y)) = 1)
    (same : x ++ (needle ++ y) = x' ++ (needle ++ y')) : x.length = x'.length := by
  have first := occurrences_once ne once
  rw [same] at once first
  exact List.singleton_inj.1 (first.symm.trans (occurrences_once ne once))

end Bytes

theorem isFresh_split {x s : Bytes} (fresh : Marker.isFresh (x ++ s) x.length = true) :
    ∃ x' b, x = x' ++ [b] ∧ Byte.isBlank b = true := by
  cases x using List.reverseRecOn with
  | nil => cases fresh
  | append_singleton x' b =>
      refine ⟨x', b, rfl, ?_⟩
      rw [List.length_append, List.length_singleton, Marker.isFresh, List.append_assoc,
        List.drop_left] at fresh
      simpa using fresh

/-- In front of each double quote stands a `=`. -/
def EqualsFirst (t : Bytes) : Prop :=
  ∀ x y, t = x ++ Byte.doubleQuote :: y → Byte.equals ∈ x

theorem EqualsFirst.equals (t : Bytes) : EqualsFirst (Byte.equals :: t) := by
  intro x y same
  cases x with
  | nil => cases same
  | cons c x =>
      obtain ⟨rfl, -⟩ := List.cons.inj same
      exact List.mem_cons_self

theorem EqualsFirst.append {u t : Bytes} (free : Byte.doubleQuote ∉ u) (first : EqualsFirst t) :
    EqualsFirst (u ++ t) := by
  intro x y same
  obtain ⟨x', rfl, rest⟩ := split_front free same
  exact List.mem_append_right _ (first x' y rest)

theorem not_mem_of_blank {gap : Bytes} (blank : AllBlank gap) {c : UInt8}
    (ink : Byte.isBlank c = false) : c ∉ gap := fun mem => by
  rw [blank c mem] at ink
  cases ink

theorem not_mem_of_itemName {name : Bytes} (isName : IsItemName name) {c : UInt8}
    (other : isItemNameByte c = false) : c ∉ name := fun mem => by
  rw [isName.2 c mem] at other
  cases other

/-- All items of the tag are attributes. -/
def TagText.Plain (tag : TagText) : Prop := ∀ x ∈ tag.items, x.2.name? ≠ none

instance (tag : TagText) : Decidable tag.Plain :=
  decidable_of_iff (tag.items.all (·.2.name?.isSome) = true) (by
    simp [TagText.Plain, Option.ne_none_iff_isSome])

/-- Attributes hold no double quote but in their values. -/
theorem EqualsFirst.items {items : List SpacedItem} (valid : ∀ x ∈ items, SpacedItem.Loose x)
    (plain : ∀ x ∈ items, x.2.name? ≠ none) {t : Bytes} (first : EqualsFirst t) :
    EqualsFirst (itemsText items ++ t) := by
  induction items with
  | nil => exact first
  | cons x rest ih =>
      obtain ⟨gap, item⟩ := x
      obtain ⟨blank, isItem⟩ := valid _ List.mem_cons_self
      have behind := ih (fun y mem => valid y (List.mem_cons_of_mem _ mem))
        (fun y mem => plain y (List.mem_cons_of_mem _ mem))
      rw [itemsText, List.append_assoc, List.append_assoc]
      refine .append (not_mem_of_blank blank (by decide)) ?_
      cases item with
      | spread body => exact absurd rfl (plain _ List.mem_cons_self)
      | flag name => exact .append (not_mem_of_itemName isItem (by decide)) behind
      | valued name before after value =>
          obtain ⟨isName, hbefore, -, -⟩ := isItem
          simp only [Item.text, List.append_assoc, List.cons_append]
          exact .append (not_mem_of_itemName isName (by decide))
            (.append (not_mem_of_blank hbefore (by decide)) (.equals _))

/-- The letter `d`, with which the name of a marker begins and ends. -/
def markerEdge : UInt8 := 100

theorem markerHead_eq (id r : Bytes) : ∃ t, Marker.ofId id ++ r = markerEdge :: t := ⟨_, rfl⟩

theorem AllBlank.snoc {gap : Bytes} (blank : AllBlank gap) (ne : gap ≠ []) :
    ∃ gap' b, gap = gap' ++ [b] ∧ Byte.isBlank b = true :=
  ⟨_, _, (List.dropLast_concat_getLast ne).symm, blank _ (List.getLast_mem ne)⟩

/-- Where a marker runs through the `=` of an item, the item has its name. -/
theorem name_of_crossing {u gap name before x : Bytes} {b : UInt8} (ne : gap ≠ [])
    (blank : AllBlank gap) (isName : IsItemName name) (hbefore : AllBlank before)
    (hb : Byte.isBlank b = true)
    (same : u ++ (gap ++ (name ++ before)) = (x ++ [b]) ++ Marker.attributeName) :
    name = Marker.attributeName := by
  have ink {n : Bytes} (h : IsItemName n) : ∀ d ∈ n, Byte.isBlank d = false := fun d mem => by
    have := h.2 d mem
    simp_all [isItemNameByte, Attribute.isAttributeNameByte]
  obtain ⟨gap, c, rfl, hc⟩ := blank.snoc ne
  cases before using List.reverseRecOn with
  | nil =>
      refine Bytes.last_word (x := u ++ gap) (y := x) hc hb (ink isName)
        (ink isItemName_attributeName) ?_
      simpa using same
  | append_singleton before e =>
      have left : (u ++ ((gap ++ [c]) ++ (name ++ (before ++ [e])))).getLast? = some e := by
        simp only [← List.append_assoc, List.getLast?_concat]
      have right : ((x ++ [b]) ++ Marker.attributeName).getLast? = some markerEdge := by
        rw [List.getLast?_append, show Marker.attributeName.getLast? = some markerEdge by decide]
        rfl
      rw [same, right] at left
      obtain rfl : markerEdge = e := Option.some.inj left
      exact absurd (hbefore markerEdge (by simp)) (by decide)

/-- The first quote behind a value that ends inside the name of a marker is the one that closes
the value. -/
theorem quote_of_closing {encoding : Encoding} {g : UInt8} (blank : Byte.isBlank g = true)
    {h r t : Bytes} (within : ∀ c ∈ h, c ∈ Marker.attributeName ++ [Byte.equals])
    (same : encoding.closing ++ g :: t = h ++ Byte.doubleQuote :: r) :
    ∃ rest, Byte.doubleQuote ∉ rest ∧ r = rest ++ g :: t := by
  have ink : ∀ c ∈ Marker.attributeName ++ [Byte.equals], (!Byte.isBlank c) = true :=
    List.all_eq_true.1 (by decide)
  have other : ∀ c, (encoding.closing ++ g :: t).head? = some c →
      c ∉ Marker.attributeName ++ [Byte.equals] := by
    intro c head
    cases encoding with
    | unquoted =>
        cases head
        intro mem
        have := ink g mem
        rw [blank] at this
        cases this
    | doubleQuoted | singleQuoted | bracedDouble | bracedSingle | bracedTemplate =>
        cases head
        decide
  cases h with
  | cons d h => exact absurd (within d List.mem_cons_self) (other d (by rw [same]; rfl))
  | nil =>
      cases encoding with
      | doubleQuoted => exact ⟨[], by simp, (List.cons.inj same).2.symm⟩
      | bracedDouble => exact ⟨[Byte.closeBrace], by decide, (List.cons.inj same).2.symm⟩
      | unquoted =>
          rw [(List.cons.inj same).1] at blank
          exact absurd blank (by decide)
      | singleQuoted | bracedSingle | bracedTemplate =>
          exact absurd (List.cons.inj same).1 (by decide)

/-- What begins like a marker between the delimiters of a value begins in the value itself. -/
theorem begins_in_text {encoding : Encoding} {value after u w : Bytes}
    (quiet : Encoding.Quiet value) (hafter : AllBlank after)
    (inside : after ++ encoding.delimit value = u ++ markerEdge :: w) :
    ∃ w', w = w' ++ encoding.closing ∧ Byte.doubleQuote ∉ markerEdge :: w' := by
  have opens : markerEdge ∉ after ++ encoding.opening := by
    rw [List.mem_append, not_or]
    exact ⟨not_mem_of_blank hafter (by decide), by cases encoding <;> decide⟩
  have closes : markerEdge ∉ encoding.closing := by cases encoding <;> decide
  rw [Encoding.delimit, ← List.append_assoc] at inside
  obtain ⟨u', -, behind⟩ := split_front opens inside
  obtain ⟨w', rfl, text⟩ := split_back closes behind
  refine ⟨w', rfl, fun mem => ?_⟩
  apply quiet.noQuote
  rw [text]
  exact List.mem_append_right _ mem

/-- No marker of an id without `=` begins in a value. -/
theorem not_begins_in_value {encoding : Encoding} {value after back id u w y : Bytes}
    (quiet : Encoding.Quiet value) (hafter : AllBlank after) (noEquals : Byte.equals ∉ id)
    (blank : ∃ g t, back = g :: t ∧ Byte.isBlank g = true) (first : EqualsFirst back)
    (inside : after ++ encoding.delimit value = u ++ w)
    (same : Marker.ofId id ++ y = w ++ back) : False := by
  obtain ⟨g, t, rfl, hg⟩ := blank
  obtain ⟨r, head⟩ := markerHead_eq id y
  rw [head] at same
  cases w with
  | nil =>
      rw [← (List.cons.inj same).1] at hg
      exact absurd hg (by decide)
  | cons d w =>
      obtain rfl : markerEdge = d := (List.cons.inj same).1
      obtain ⟨w', rfl, quoteless⟩ := begins_in_text quiet hafter inside
      have marker : (markerEdge :: w') ++ (encoding.closing ++ g :: t) =
          (Marker.attributeName ++ [Byte.equals]) ++
            Byte.doubleQuote :: (id ++ Byte.doubleQuote :: y) := by
        rw [← head, ofId_append] at same
        simpa using same.symm
      obtain ⟨h, name, rest⟩ := split_front quoteless marker
      have within : ∀ c ∈ h, c ∈ Marker.attributeName ++ [Byte.equals] := by
        rw [name]
        exact fun c mem => List.mem_append_right _ mem
      -- The quote that closes the value opens the id, and the next one stands behind a `=`.
      obtain ⟨rest', free, behind⟩ := quote_of_closing hg within rest
      exact noEquals (first.append free id y behind.symm)

/-- A marker that is no part of what is written anew stands in front of it or behind it. -/
theorem Slot.place_cases {tag : TagText} (slot : Slot tag) {id : Bytes} (place : MarkerPlace tag id)
    (kept : (place.gap, markerItem id) ∉ slot.old) :
    (∃ l, slot.earlier = place.earlier ++ (place.gap, markerItem id) :: l) ∨
      ∃ l, place.earlier = slot.earlier ++ (slot.old ++ l) ∧
        slot.later = l ++ (place.gap, markerItem id) :: place.later := by
  have same := slot.split.symm.trans place.split
  obtain ⟨w, front, rest⟩ | ⟨w, front, rest⟩ := List.append_eq_append_iff.1 same
  · obtain ⟨l, rfl, behind⟩ := split_front kept rest
    exact .inr ⟨l, front, behind⟩
  · cases w with
    | nil =>
        obtain ⟨l, none', behind⟩ := split_front (x := []) kept rest.symm
        obtain ⟨old, rfl⟩ := List.append_eq_nil_iff.1 none'.symm
        refine .inr ⟨[], ?_, behind⟩
        rw [old, front, List.append_nil, List.append_nil, List.append_nil]
    | cons x w =>
        obtain ⟨rfl, -⟩ := List.cons.inj rest
        exact .inl ⟨w, front⟩

/-- Where items follow, the text behind what is written anew begins with white space. -/
theorem Slot.head_back {tag : TagText} (slot : Slot tag) (ne : slot.later ≠ []) (s : Bytes) :
    ∃ g t, slot.back s = g :: t ∧ Byte.isBlank g = true := by
  obtain ⟨⟨gap, item⟩, rest, later⟩ := List.exists_cons_of_ne_nil ne
  obtain ⟨apart, blank, -⟩ := tag.valid (gap, item) (by simp [slot.split, later])
  obtain ⟨g, t, rfl⟩ := List.exists_cons_of_ne_nil apart
  rw [back, later]
  exact ⟨g, _, rfl, blank g List.mem_cons_self⟩

namespace Setting

variable {tag : TagText} {name value id : Bytes} (setting : Setting tag name value)

theorem less_not_mem (quiet : Encoding.Quiet value) : Byte.less ∉ setting.item.text := by
  obtain ⟨-, -, isName, hbefore, hafter, -⟩ := setting.valid
  have opens : Byte.less ∉ setting.encoding.opening := by cases setting.encoding <;> decide
  have closes : Byte.less ∉ setting.encoding.closing := by cases setting.encoding <;> decide
  simp only [item, Item.text, Encoding.delimit, List.mem_append, List.mem_cons, not_or]
  exact ⟨not_mem_of_itemName isName (by decide), not_mem_of_blank hbefore (by decide), by decide,
    not_mem_of_blank hafter (by decide), opens, quiet.noLess, closes⟩

theorem text_eq (p s : Bytes) :
    setting.text p s =
      setting.slot.front p ++ ((setting.gap ++ setting.item.text) ++ setting.slot.back s) := by
  rw [text, result, setting.slot.text_put, List.append_assoc]

/-- The item up to its `=`, and the text behind that. -/
theorem text_around_equals (p s : Bytes) :
    setting.text p s =
      (setting.slot.front p ++ (setting.gap ++ (name ++ setting.before))) ++
        Byte.equals :: ((setting.after ++ setting.encoding.delimit value) ++
          setting.slot.back s) := by
  rw [setting.text_eq]
  simp [item, Item.text]

/-- A marker that begins in front of the `=` that was written ends in front of the item. -/
theorem stands_in_front (unmarked : name ≠ Marker.attributeName) (noEquals : Byte.equals ∉ id)
    {p x y w behind : Bytes} (fresh : ∃ x' b, x = x' ++ [b] ∧ Byte.isBlank b = true)
    (here : setting.slot.front p ++ (setting.gap ++ (name ++ setting.before)) = x ++ w)
    (rest : Marker.ofId id ++ y = w ++ Byte.equals :: behind) :
    ∃ z, setting.slot.front p = x ++ (Marker.ofId id ++ z) := by
  obtain ⟨apart, hgap, isName, hbefore, -⟩ := setting.valid
  rw [ofId_append] at rest
  have nameFree : Byte.equals ∉ Marker.attributeName := by decide
  obtain ⟨v, rfl, behindName⟩ := split_front nameFree rest
  cases v with
  | nil =>
      -- The `=` that was written would be the one of the marker.
      obtain ⟨x', b, rfl, hb⟩ := fresh
      rw [List.append_nil] at here
      exact absurd (name_of_crossing apart hgap isName hbefore hb here) unmarked
  | cons c v =>
      obtain ⟨rfl, inner⟩ := List.cons.inj behindName
      have tailFree : Byte.equals ∉ Byte.doubleQuote :: (id ++ [Byte.doubleQuote]) := by
        rw [List.mem_cons, List.mem_append, List.mem_singleton, not_or, not_or]
        exact ⟨by decide, noEquals, by decide⟩
      obtain ⟨z, rfl, -⟩ := split_front (v := y) tailFree (by simpa using inner)
      have itemFree : Byte.doubleQuote ∉ setting.gap ++ (name ++ setting.before) := by
        rw [List.mem_append, List.mem_append, not_or, not_or]
        exact ⟨not_mem_of_blank hgap (by decide), not_mem_of_itemName isName (by decide),
          not_mem_of_blank hbefore (by decide)⟩
      have closed : setting.slot.front p ++ (setting.gap ++ (name ++ setting.before)) =
          (x ++ (Marker.opening ++ id)) ++ Byte.doubleQuote :: z := by
        have opening : Marker.opening = Marker.attributeName ++ [Byte.equals, Byte.doubleQuote] :=
          rfl
        rw [here, opening]
        simp
      obtain ⟨z', -, front⟩ := split_back itemFree closed
      exact ⟨z', by rw [front, Marker.ofId]; simp⟩

/-- A marker that begins behind the `=` that was written begins behind the item. -/
theorem stands_behind (quiet : Encoding.Quiet value) (noEquals : Byte.equals ∉ id)
    {back y w : Bytes} (blank : ∃ g t, back = g :: t ∧ Byte.isBlank g = true)
    (first : EqualsFirst back)
    (rest : Byte.equals :: ((setting.after ++ setting.encoding.delimit value) ++ back) =
      w ++ (Marker.ofId id ++ y)) :
    ∃ z, w = Byte.equals :: ((setting.after ++ setting.encoding.delimit value) ++ z) ∧
      back = z ++ (Marker.ofId id ++ y) := by
  obtain ⟨-, -, -, -, hafter, -⟩ := setting.valid
  cases w with
  | nil =>
      obtain ⟨t, head⟩ := markerHead_eq id y
      rw [List.nil_append, head] at rest
      exact absurd (List.cons.inj rest).1 (by decide)
  | cons c w =>
      obtain ⟨rfl, inner⟩ := List.cons.inj rest
      obtain ⟨z, rfl, marker⟩ | ⟨u, inside, marker⟩ := List.append_eq_append_iff.1 inner
      · exact ⟨z, rfl, marker⟩
      · exact (not_begins_in_value quiet hafter noEquals blank first inside marker).elim

/-- A marker that stands in the new text stands in front of what was written or behind it. -/
theorem stands_outside (quiet : Encoding.Quiet value)
    (unmarked : name ≠ Marker.attributeName) (noEquals : Byte.equals ∉ id) {p s x y : Bytes}
    (blank : ∃ g t, setting.slot.back s = g :: t ∧ Byte.isBlank g = true)
    (first : EqualsFirst (setting.slot.back s))
    (same : setting.text p s = x ++ (Marker.ofId id ++ y))
    (fresh : Marker.isFresh (setting.text p s) x.length = true) :
    (∃ z, setting.slot.front p = x ++ (Marker.ofId id ++ z)) ∨
      ∃ z, x = (setting.slot.front p ++ (setting.gap ++ setting.item.text)) ++ z ∧
        setting.slot.back s = z ++ (Marker.ofId id ++ y) := by
  obtain ⟨w, here, rest⟩ | ⟨w, here, rest⟩ :=
    List.append_eq_append_iff.1 ((setting.text_around_equals p s).symm.trans same)
  · obtain ⟨z, rfl, behind⟩ := setting.stands_behind quiet noEquals blank first rest
    refine .inr ⟨z, ?_, behind⟩
    rw [here]
    simp [item, Item.text]
  · rw [same] at fresh
    exact .inl (setting.stands_in_front unmarked noEquals (isFresh_split fresh) here rest)

theorem kept (unmarked : name ≠ Marker.attributeName) (gap : Bytes) :
    (gap, markerItem id) ∉ setting.slot.old :=
  fun mem => unmarked (Option.some.inj (setting.old _ mem)).symm

end Setting

theorem LoosePlace.offset_unique {tag : LooseTag} {id p s x y : Bytes} (place : LoosePlace tag id)
    (once : Bytes.times (Marker.ofId id) (p ++ (tag.text ++ s)) = 1)
    (same : p ++ (tag.text ++ s) = x ++ (Marker.ofId id ++ y)) :
    x.length = place.offset p.length := by
  rw [place.text_split] at once same
  rw [← place.length_front, Bytes.place_unique (ofId_ne_nil id) once same]

theorem MarkerPlace.offset_unique {tag : TagText} {id p s x y : Bytes} (place : MarkerPlace tag id)
    (once : Bytes.times (Marker.ofId id) (p ++ (tag.text ++ s)) = 1)
    (same : p ++ (tag.text ++ s) = x ++ (Marker.ofId id ++ y)) :
    x.length = place.offset p.length :=
  place.loose.offset_unique once same

/-- The owner of the first marker is located. -/
theorem locateTag?_of_first {text id : Bytes} {m : Nat} {tag : OpenTag}
    (mem : m ∈ Marker.offsets text id) (first : ∀ m' ∈ Marker.offsets text id, m ≤ m')
    (owner : owner? text m = some tag) : locateTag? text id = some tag := by
  have sorted := offsets_sorted text id
  rw [locateTag?]
  cases offsets : Marker.offsets text id with
  | nil =>
      rw [offsets] at mem
      cases mem
  | cons n later =>
      rw [offsets] at mem first sorted
      have le := first n List.mem_cons_self
      cases List.mem_cons.1 mem with
      | inl same => rw [List.findSome?_cons, ← same, owner]
      | inr behind =>
          have := (List.pairwise_cons.1 sorted).1 m behind
          omega

theorem stands_of_mem_offsets {text id : Bytes} {m : Nat} (mem : m ∈ Marker.offsets text id) :
    ∃ x y, text = x ++ (Marker.ofId id ++ y) ∧ x.length = m ∧
      Marker.isFresh text m = true := by
  obtain ⟨found, fresh⟩ := List.mem_filter.1 mem
  obtain ⟨y, rest⟩ := Bytes.stands_of_mem_occurrences found
  have inside : m ≤ text.length := by
    by_contra beyond
    rw [List.drop_eq_nil_of_le (by omega), List.append_eq_nil_iff] at rest
    exact ofId_ne_nil id rest.1
  refine ⟨text.take m, y, ?_, ?_, fresh⟩
  · rw [rest, List.take_append_drop]
  · rw [List.length_take, Nat.min_eq_left inside]

section

variable {tag : TagText} {name value id : Bytes} (setting : Setting tag name value)
  {place : MarkerPlace tag id} {l : List SpacedItem}
  (earlier : setting.slot.earlier = place.earlier ++ (place.gap, markerItem id) :: l)

def Setting.placeInFront : MarkerPlace setting.result id where
  earlier := place.earlier
  gap := place.gap
  later := l ++ (setting.gap, setting.item) :: setting.slot.later
  split := by
    change setting.slot.earlier ++ _ = _
    rw [earlier, List.append_assoc, List.cons_append]

include earlier

/-- All of the marker stands in the part that is kept. -/
theorem Setting.width_front (p : Bytes) :
    place.offset p.length + (Marker.ofId id).length ≤ (setting.slot.front p).length := by
  have front : setting.slot.front p =
      (p ++ Byte.less :: place.lead) ++ (Marker.ofId id ++ itemsText l) := by
    simp [Slot.front, earlier, itemsText_append, itemsText, text_markerItem, MarkerPlace.lead]
  rw [front, ← List.append_assoc, List.length_append, List.length_append, place.length_front]
  omega

variable {p s : Bytes} (once : Bytes.times (Marker.ofId id) (p ++ (tag.text ++ s)) = 1)

include once

theorem Setting.first_in_front {m : Nat} (mem : m ∈ Marker.offsets (setting.text p s) id) :
    place.offset p.length ≤ m := by
  obtain ⟨x, y, same, rfl, -⟩ := stands_of_mem_offsets mem
  have width := setting.width_front earlier p
  by_contra before
  have within : ∃ z, setting.slot.front p = x ++ (Marker.ofId id ++ z) := by
    rw [text_eq, ← List.append_assoc x] at same
    obtain ⟨w, longer, -⟩ | ⟨z, whole, -⟩ := List.append_eq_append_iff.1 same
    · have := congrArg List.length longer
      rw [List.length_append, List.length_append] at this
      omega
    · exact ⟨z, by rw [whole, List.append_assoc]⟩
  obtain ⟨z, whole⟩ := within
  have old := place.offset_unique once (x := x) (y := z ++ (itemsText setting.slot.old ++
    setting.slot.back s)) (by rw [setting.slot.text_eq, whole]; simp)
  omega

/-- Where the marker stands in front of what is written, it is the first one as before. -/
theorem Setting.locate_in_front (clear : Byte.less ∉ place.lead) (noEquals : Byte.equals ∉ id) :
    locateTag? (setting.text p s) id = some (setting.result.reading p.length) := by
  let place' := setting.placeInFront earlier
  exact locateTag?_of_first (place'.mem_offsets noEquals p s)
    (fun m mem => setting.first_in_front earlier once mem) (owner?_markerPlace place' clear p s)

end

section

variable {tag : TagText} {name value id : Bytes} (setting : Setting tag name value)
  {place : MarkerPlace tag id} {l : List SpacedItem}
  (earlier : place.earlier = setting.slot.earlier ++ (setting.slot.old ++ l))
  (later : setting.slot.later = l ++ (place.gap, markerItem id) :: place.later)

def Setting.placeBehind : MarkerPlace setting.result id where
  earlier := setting.slot.earlier ++ (setting.gap, setting.item) :: l
  gap := place.gap
  later := place.later
  split := by
    change _ ++ _ :: setting.slot.later = _
    rw [later, List.append_assoc, List.cons_append]

theorem Setting.lead_placeBehind (p : Bytes) :
    p ++ Byte.less :: (setting.placeBehind later).lead =
      (setting.slot.front p ++ (setting.gap ++ setting.item.text)) ++
        (itemsText l ++ place.gap) := by
  have name' : setting.result.name = tag.name := rfl
  simp [MarkerPlace.lead, Slot.front, placeBehind, itemsText_append, itemsText, name']

include earlier in
theorem Setting.lead_place (p : Bytes) :
    p ++ Byte.less :: place.lead =
      (setting.slot.front p ++ itemsText setting.slot.old) ++ (itemsText l ++ place.gap) := by
  simp [MarkerPlace.lead, Slot.front, earlier, itemsText_append]

include earlier in
theorem Setting.clear_placeBehind (quiet : Encoding.Quiet value)
    (clear : Byte.less ∉ place.lead) : Byte.less ∉ (setting.placeBehind later).lead := by
  have written := setting.less_not_mem quiet
  have gap := not_mem_of_blank setting.valid.blank (c := Byte.less) (by decide)
  have name' : setting.result.name = tag.name := rfl
  simp only [MarkerPlace.lead, earlier, itemsText_append, List.mem_append, not_or] at clear
  simp [MarkerPlace.lead, placeBehind, itemsText_append, itemsText, name', clear, gap, written]

include earlier later

theorem Setting.equalsFirst_back (plain : tag.Plain) (s : Bytes) :
    EqualsFirst (setting.slot.back s) := by
  have inside : ∀ x ∈ l, x ∈ tag.items := fun x mem => by
    rw [place.split, earlier]
    simp [mem]
  have marker : EqualsFirst (place.gap ++ (Marker.ofId id ++ (place.trail ++ s))) := by
    rw [ofId_append]
    exact .append (not_mem_of_blank place.valid.blank (by decide))
      (.append (by decide) (.equals _))
  have back : setting.slot.back s =
      itemsText l ++ (place.gap ++ (Marker.ofId id ++ (place.trail ++ s))) := by
    simp [Slot.back, later, itemsText_append, itemsText, text_markerItem, MarkerPlace.trail]
  rw [back]
  exact .items (fun x mem => (tag.valid x (inside x mem)).loose)
    (fun x mem => plain x (inside x mem)) marker

variable (quiet : Encoding.Quiet value) (unmarked : name ≠ Marker.attributeName)
  (plain : tag.Plain) (noEquals : Byte.equals ∉ id) {p s : Bytes}
  (once : Bytes.times (Marker.ofId id) (p ++ (tag.text ++ s)) = 1)

include quiet unmarked plain noEquals once

theorem Setting.first_behind {m : Nat} (mem : m ∈ Marker.offsets (setting.text p s) id) :
    (setting.placeBehind later).offset p.length ≤ m := by
  obtain ⟨x, y, same, rfl, fresh⟩ := stands_of_mem_offsets mem
  have blank := setting.slot.head_back (by simp [later]) s
  have first := setting.equalsFirst_back earlier later plain s
  have offset := congrArg List.length (setting.lead_place earlier p)
  have offset' := congrArg List.length (setting.lead_placeBehind later p)
  rw [MarkerPlace.length_front] at offset offset'
  obtain ⟨z, front⟩ | ⟨z, rfl, behind⟩ :=
    setting.stands_outside quiet unmarked noEquals blank first same fresh
  · -- The old marker would stand in front of its own place.
    have old := place.offset_unique once (x := x) (y := z ++ (itemsText setting.slot.old ++
      setting.slot.back s)) (by rw [setting.slot.text_eq, front]; simp)
    have width := congrArg List.length front
    have pos := List.length_pos_iff.2 (ofId_ne_nil id)
    simp only [List.length_append] at offset width
    omega
  · have old := place.offset_unique once
      (x := (setting.slot.front p ++ itemsText setting.slot.old) ++ z) (y := y)
      (by rw [setting.slot.text_eq, behind]; simp)
    simp only [List.length_append] at offset offset' old ⊢
    omega

/-- Where the marker stands behind what is written, no other one comes to stand in front of it. -/
theorem Setting.locate_behind (clear : Byte.less ∉ place.lead) :
    locateTag? (setting.text p s) id = some (setting.result.reading p.length) := by
  let place' := setting.placeBehind later
  have clear' := setting.clear_placeBehind earlier later quiet clear
  refine locateTag?_of_first (place'.mem_offsets noEquals p s) (fun m mem => ?_)
    (owner?_markerPlace place' clear' p s)
  exact setting.first_behind earlier later quiet unmarked plain noEquals once mem

end

/-- The tag is located where it was. -/
theorem Setting.locate_quiet {tag : TagText} {name value id : Bytes}
    (setting : Setting tag name value) {place : MarkerPlace tag id} {p s : Bytes}
    (quiet : Encoding.Quiet value) (unmarked : name ≠ Marker.attributeName)
    (plain : tag.Plain) (clear : Byte.less ∉ place.lead) (noEquals : Byte.equals ∉ id)
    (once : Bytes.times (Marker.ofId id) (p ++ (tag.text ++ s)) = 1) :
    locateTag? (setting.text p s) id = some (setting.result.reading p.length) := by
  obtain ⟨l, earlier⟩ | ⟨l, earlier, later⟩ :=
    setting.slot.place_cases place (setting.kept unmarked place.gap)
  · exact setting.locate_in_front earlier once clear noEquals
  · exact setting.locate_behind earlier later quiet unmarked plain noEquals once clear

theorem Setting.locate_result {tag : TagText} {name value id : Bytes}
    (setting : Setting tag name value) {place : MarkerPlace tag id} {p s : Bytes}
    (harmless : Encoding.Harmless value) (unmarked : name ≠ Marker.attributeName)
    (plain : tag.Plain) (clear : Byte.less ∉ place.lead) (noEquals : Byte.equals ∉ id)
    (once : Bytes.times (Marker.ofId id) (p ++ (tag.text ++ s)) = 1) :
    locateTag? (setting.text p s) id = some (setting.result.reading p.length) :=
  setting.locate_quiet harmless.quiet unmarked plain clear noEquals once

end MarkupEdit
