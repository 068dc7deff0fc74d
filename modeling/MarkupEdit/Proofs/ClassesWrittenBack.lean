import MarkupEdit.Proofs.ClassAttributes

/-!
Writing back the class list that was read. The list is written into the attribute that the order
of writing chooses, and read from the one that the order of reading chooses. Where they choose the
same one, the new literal is again the first choice of both; so the write is stable, as long as
the list can be written between quotes at all.
-/

namespace MarkupEdit

namespace Encoding

/-- How a value is written between double quotes: as it is, or between single quotes where it
holds double ones only, or with references for its double quotes. -/
inductive DoubleForm (value : Bytes) : Encoding → Bytes → Prop where
  | double (plain : Byte.doubleQuote ∉ value) : DoubleForm value doubleQuoted value
  | single (quoted : Byte.doubleQuote ∈ value) (plain : Byte.singleQuote ∉ value) :
      DoubleForm value singleQuoted value
  | referred (quoted : Byte.doubleQuote ∈ value) (both : Byte.singleQuote ∈ value) :
      DoubleForm value doubleQuoted (refer Byte.doubleQuote "&quot;" value)

theorem quotedText_of_opensEscape {mark : UInt8} {w : Bytes} (absent : mark ∉ w)
    (even : opensEscape w = false) : QuotedText mark w := by
  fun_induction unescape w with
  | case1 => exact .nil
  | case2 => exact absurd even (by decide)
  | case3 d u ih =>
      rw [opensEscape_pair] at even
      refine .escape d (ih (fun mem => absent ?_) even)
      exact List.mem_cons_of_mem _ (List.mem_cons_of_mem _ mem)
  | case4 c t other ih =>
      rw [opensEscape_cons other] at even
      refine .byte other ?_ (ih (fun mem => absent (List.mem_cons_of_mem c mem)) even)
      rintro rfl
      exact absent List.mem_cons_self

theorem isValue_quoted {mark : UInt8} (isQuote : Byte.isQuote mark = true) {w : Bytes}
    (absent : mark ∉ w) (even : opensEscape w = false) : IsValue (quote mark w) :=
  .inl (.quoted isQuote (quotedText_of_opensEscape absent even))

theorem formatDouble_form {value : Bytes} (even : opensEscape value = false) :
    ∃ encoding text, DoubleForm value encoding text ∧
      parse (formatDouble value) = some (encoding, text) ∧ IsValue (formatDouble value) := by
  rw [formatDouble, formatQuoted]
  split
  next switched =>
    have quoted : Byte.doubleQuote ∈ value := by simpa using switched.1
    have plain : Byte.singleQuote ∉ value := by simpa using switched.2
    refine ⟨_, _, .single quoted plain, ?_, isValue_quoted rfl plain even⟩
    rw [parse_quoted rfl plain, even]
    rfl
  next kept =>
    have absent := not_mem_refer .double value
    have even' := (opensEscape_refer .double value).trans even
    have read : parse (quote Byte.doubleQuote (refer Byte.doubleQuote "&quot;" value)) =
        some (doubleQuoted, refer Byte.doubleQuote "&quot;" value) := by
      rw [parse_quoted rfl absent, even']
      rfl
    by_cases quoted : Byte.doubleQuote ∈ value
    · have both : Byte.singleQuote ∈ value := by simpa [quoted] using kept
      exact ⟨_, _, .referred quoted both, read, isValue_quoted rfl absent even'⟩
    · have same : refer Byte.doubleQuote "&quot;" value = value := by
        refine Harmless.flatMap_self fun c mem => if_neg ?_
        rintro rfl
        exact quoted mem
      rw [same] at read absent ⊢
      exact ⟨_, _, .double quoted, read, isValue_quoted rfl absent even⟩

end Encoding

/-- Names and values of attributes, as they are written. -/
def asWritten (attributes : List Attribute) : List (Bytes × Option Bytes) :=
  attributes.map fun a => (a.name, a.raw)

theorem asWritten_append (earlier later : List Attribute) :
    asWritten (earlier ++ later) = asWritten earlier ++ asWritten later :=
  List.map_append

namespace Classes

variable {form : Form} {order : List Form} {earlier later later' : List Attribute}
  {a a' : Attribute} {classes text : Bytes} {encoding : Encoding}

/-- Both orders choose the same attribute. -/
def Agree (attributes : List Attribute) : Prop :=
  (choose? readOrder attributes).map (·.1) = (choose? writeOrder attributes).map (·.1)

instance (attributes : List Attribute) : Decidable (Agree attributes) :=
  inferInstanceAs (Decidable (_ = _))

theorem quoted_mem_order : ∀ order ∈ [readOrder, writeOrder], ∀ name : AttributeName,
    (name, Encoding.doubleQuoted) ∈ order ∧ (name, Encoding.singleQuoted) ∈ order := by
  intro order mem name
  simp only [List.mem_cons, List.not_mem_nil, or_false] at mem
  obtain rfl | rfl := mem
  · cases name <;> decide
  · cases name <;> decide

/-- Among the forms of a name the one with double quotes comes first, in either order. -/
theorem double_first : ∀ form ∈ readOrder, ∀ order ∈ [readOrder, writeOrder],
    (form.1, .doubleQuoted) = form ∨ (form.1, .doubleQuoted) ∈ before order form := by decide

theorem before_double : ∀ form ∈ readOrder, ∀ order ∈ [readOrder, writeOrder],
    ∀ f ∈ before order (form.1, .doubleQuoted), f ∈ before order form := by decide

/-- What comes before the form of a name with single quotes, in either order, has the same name
itself or comes before every form of that name in one of the orders. -/
theorem before_single : ∀ form ∈ readOrder, ∀ order ∈ [readOrder, writeOrder],
    ∀ f ∈ before order (form.1, .singleQuoted),
      f.1 = form.1 ∨ f ∈ before readOrder form ∨ f ∈ before writeOrder form := by decide

theorem literalOf?_eq_none_of_name {b : Attribute} (other : b.name ≠ form.1.bytes) :
    literalOf? form b = none := by
  rw [literalOf?, if_neg other]

theorem literalOf?_congr {b : Attribute} (same : (a.name, a.raw) = (b.name, b.raw)) :
    literalOf? form a = literalOf? form b := by
  obtain ⟨name, raw⟩ := Prod.mk.inj same
  rw [literalOf?, literalOf?, Attribute.classify, Attribute.classify, name, raw]

theorem mem_asWritten {b : Attribute} (same : asWritten later' = asWritten later)
    (mem : b ∈ later') : ∃ b' ∈ later, (b'.name, b'.raw) = (b.name, b.raw) := by
  have written : (b.name, b.raw) ∈ asWritten later' := List.mem_map_of_mem mem
  rw [same] at written
  exact List.mem_map.1 written

theorem Chosen.others (chosen : Chosen order form earlier later a classes) {f : Form}
    (hf : f ∈ before order form) : ∀ b ∈ earlier ++ later, literalOf? f b = none := by
  intro b hb
  apply chosen.absent f hf
  rw [List.mem_append] at hb ⊢
  exact hb.imp_right (List.mem_cons_of_mem a)

section

-- Both orders choose an attribute. It is written anew, between double quotes, or between single
-- ones if no other attribute has its name.
variable (hr : Chosen readOrder form earlier later a classes)
  (hw : Chosen writeOrder form earlier later a classes) (mem : order ∈ [readOrder, writeOrder])
  (quoted : encoding = .doubleQuoted ∨
    encoding = .singleQuoted ∧ ∀ b ∈ earlier ++ later, b.name ≠ form.1.bytes)

include hr hw mem

theorem chosen_of_mem : Chosen order form earlier later a classes := by
  simp only [List.mem_cons, List.not_mem_nil, or_false] at mem
  obtain rfl | rfl := mem
  · exact hr
  · exact hw

include quoted

theorem passed_anew : ∀ b ∈ earlier, literalOf? (form.1, encoding) b = none := by
  intro b hb
  obtain rfl | ⟨rfl, alone⟩ := quoted
  · rcases double_first form hr.mem order mem with same | sooner
    · rw [same]
      exact (chosen_of_mem hr hw mem).passed b hb
    · exact (chosen_of_mem hr hw mem).others sooner b (List.mem_append_left _ hb)
  · exact literalOf?_eq_none_of_name (alone b (List.mem_append_left _ hb))

theorem absent_anew :
    ∀ f ∈ before order (form.1, encoding), ∀ b ∈ earlier ++ later, literalOf? f b = none := by
  intro f hf b hb
  obtain rfl | ⟨rfl, alone⟩ := quoted
  · exact (chosen_of_mem hr hw mem).others (before_double form hr.mem order mem f hf) b hb
  · obtain same | sooner | sooner := before_single form hr.mem order mem f hf
    · apply literalOf?_eq_none_of_name
      rw [same]
      exact alone b hb
    · exact hr.others sooner b hb
    · exact hw.others sooner b hb

/-- Either order chooses the new attribute, in its new form. -/
theorem choose?_anew (same : asWritten later' = asWritten later) (name : a'.name = a.name)
    (literal : a'.classify = .literal encoding text) :
    choose? order (earlier ++ a' :: later') = some (a', text) := by
  have named : a.name = form.1.bytes := (literalOf?_eq_some_iff.1 hr.literal).1
  have inside : (form.1, encoding) ∈ order := by
    obtain rfl | ⟨rfl, -⟩ := quoted
    · exact (quoted_mem_order order mem form.1).1
    · exact (quoted_mem_order order mem form.1).2
  have again : literalOf? (form.1, encoding) a' = some text :=
    literalOf?_eq_some_iff.2 ⟨name.trans named, literal⟩
  refine choose?_eq_some_iff.2 ⟨_, earlier, later', rfl, .of_others inside again
    (passed_anew hr hw mem quoted) fun f hf b hb => ?_⟩
  have absent := absent_anew hr hw mem quoted f hf
  rcases List.mem_append.1 hb with front | back
  · exact absent b (List.mem_append_left _ front)
  · obtain ⟨b', hb', written⟩ := mem_asWritten same back
    rw [← literalOf?_congr written]
    exact absent b' (List.mem_append_right _ hb')

end

theorem write_of_read {attributes : List Attribute}
    (read : choose? readOrder attributes = some (a, classes)) :
    ∃ b old, choose? writeOrder attributes = some (b, old) := by
  have forms : ∀ form ∈ readOrder, form ∈ writeOrder := by decide
  obtain ⟨form, earlier, later, rfl, chosen⟩ := choose?_eq_some_iff.1 read
  cases written : choose? writeOrder (earlier ++ a :: later) with
  | none =>
      have lost := choose?_eq_none_iff.1 written form (forms form chosen.mem) a (by simp)
      rw [chosen.literal] at lost
      cases lost
  | some found => exact ⟨found.1, found.2, rfl⟩

theorem Chosen.takeWhile (chosen : Chosen order form earlier later a classes) :
    (earlier ++ a :: later).takeWhile (fun b => literalOf? form b = none) = earlier := by
  rw [List.takeWhile_append_of_pos]
  · simp [chosen.literal]
  · simpa using chosen.passed

/-- Where both orders choose the same attribute, they choose it in the same form. -/
theorem chosen_both {attributes : List Attribute} {old : Bytes}
    (read : choose? readOrder attributes = some (a, classes))
    (written : choose? writeOrder attributes = some (a, old)) :
    old = classes ∧ ∃ form earlier later, attributes = earlier ++ a :: later ∧
      Chosen readOrder form earlier later a classes ∧
      Chosen writeOrder form earlier later a classes := by
  obtain ⟨form, earlier, later, rfl, hr⟩ := choose?_eq_some_iff.1 read
  obtain ⟨form', earlier', later', split, hw⟩ := choose?_eq_some_iff.1 written
  obtain rfl := form_unique hr.literal hw.literal
  obtain rfl : classes = old := Option.some.inj (hr.literal.symm.trans hw.literal)
  have same := hr.takeWhile
  rw [split, hw.takeWhile] at same
  obtain rfl := same
  obtain ⟨-, rfl⟩ := List.cons.inj (List.append_cancel_left split)
  exact ⟨rfl, form, earlier', later, rfl, hr, hw⟩

end Classes

theorem asWritten_itemAttributes (i j : Nat) (items : List SpacedItem) :
    asWritten (itemAttributes i items) = asWritten (itemAttributes j items) := by
  induction items generalizing i j with
  | nil => rfl
  | cons x rest ih =>
      obtain ⟨gap, item⟩ := x
      have first : asWritten (item.attribute? (i + gap.length)).toList =
          asWritten (item.attribute? (j + gap.length)).toList := by
        cases item <;> rfl
      rw [itemAttributes, itemAttributes, asWritten_append, asWritten_append, first,
        ih _ (j + gap.length + item.text.length)]

theorem itemAttributes_split {i : Nat} {items : List SpacedItem} {earlier later : List Attribute}
    {a : Attribute} (h : itemAttributes i items = earlier ++ a :: later) :
    ∃ front gap item back, items = front ++ (gap, item) :: back ∧
      itemAttributes i front = earlier ∧
      item.attribute? (i + (itemsText front).length + gap.length) = some a ∧
      itemAttributes (i + (itemsText front).length + gap.length + item.text.length) back =
        later := by
  induction items generalizing i earlier with
  | nil => simp [itemAttributes] at h
  | cons x rest ih =>
      obtain ⟨gap, item⟩ := x
      have carry {earlier' : List Attribute} (behind : itemAttributes
          (i + gap.length + item.text.length) rest = earlier' ++ a :: later) :
          ∃ front gap' item' back, (gap, item) :: rest = front ++ (gap', item') :: back ∧
            itemAttributes i front = (item.attribute? (i + gap.length)).toList ++ earlier' ∧
            item'.attribute? (i + (itemsText front).length + gap'.length) = some a ∧
            itemAttributes (i + (itemsText front).length + gap'.length + item'.text.length) back =
              later := by
        obtain ⟨front, gap', item', back, rfl, rfl, here, rfl⟩ := ih behind
        have offset : i + (itemsText ((gap, item) :: front)).length =
            i + gap.length + item.text.length + (itemsText front).length := by
          rw [itemsText, List.length_append, List.length_append]
          omega
        exact ⟨(gap, item) :: front, gap', item', back, rfl, rfl, by rw [offset, here],
          by rw [offset]⟩
      rw [itemAttributes] at h
      -- The item is no attribute, or the one that was sought, or one in front of that.
      cases found : item.attribute? (i + gap.length) with
      | none =>
          rw [found, Option.toList_none, List.nil_append] at h
          simpa [found] using carry h
      | some b =>
          rw [found, Option.toList_some, List.singleton_append] at h
          cases earlier with
          | nil =>
              obtain ⟨rfl, rfl⟩ := List.cons.inj h
              exact ⟨[], gap, item, rest, rfl, rfl, found, rfl⟩
          | cons e earlier =>
              obtain ⟨rfl, behind⟩ := List.cons.inj h
              simpa [found] using carry behind

/-- A value that is written over itself changes nothing. -/
theorem replaceValue_self {text : Bytes} {tag : OpenTag} (sound : tag.Sound text) {a : Attribute}
    (mem : a ∈ tag.attributes text) {raw : Bytes} (same : a.raw = some raw) :
    (a.replaceValue raw).apply text = text := by
  obtain ⟨v, value, rfl⟩ := Option.map_eq_some_iff.1 same
  have stands := ((sound.attribute mem).value v value).text
  have whole : text.splice v.start (v.start + v.text.length)
      (text.slice v.start (v.start + v.text.length)) = text :=
    Bytes.splice_slice (Nat.le_add_right v.start v.text.length)
  rw [stands] at whole
  rw [Attribute.replaceValue, value]
  exact whole

/-- A tag as written with another value in one attribute. -/
theorem TagText.exists_rewritten {tag : TagText} {p : Bytes} {earlier later : List Attribute}
    {a : Attribute} (split : tag.written p.length = earlier ++ a :: later) {raw : Bytes}
    (isValue : IsValue raw) (s : Bytes) :
    ∃ (edited : TagText) (a' : Attribute) (later' : List Attribute),
      (a.replaceValue raw).apply (p ++ (tag.text ++ s)) = p ++ (edited.text ++ s) ∧
      edited.written p.length = earlier ++ a' :: later' ∧ a'.name = a.name ∧
      a'.raw = some raw ∧ asWritten later' = asWritten later := by
  obtain ⟨front, gap, item, back, items, rfl, found, rfl⟩ := itemAttributes_split split
  obtain ⟨before, after, put⟩ := Slot.put_value (s := s) items found
  obtain ⟨valid, text⟩ := put raw isValue
  refine ⟨_, _, _, text, itemAttributes_append _ front _, rfl, rfl, ?_⟩
  exact asWritten_itemAttributes _ _ back

/-- Writing back changes nothing that can be observed: the list is read again, all other attributes
are as they were, and the same write changes nothing more. -/
structure WritesBack (source new id classes : Bytes) : Prop where
  read : readClasses? new id = some classes
  others : ∃ (tag edited : OpenTag) (earlier later : List Attribute) (a : Attribute)
      (raw : Option Bytes), locateTag? source id = some tag ∧ locateTag? new id = some edited ∧
    tag.attributes source = earlier ++ a :: later ∧
    Classes.choose? Classes.readOrder (tag.attributes source) = some (a, classes) ∧
    asWritten (edited.attributes new) = asWritten earlier ++ (a.name, raw) :: asWritten later
  again : (Edit.setClasses new id classes).map new.patch = .ok new

namespace Edit

theorem setClasses_of_choose? {text id classes old : Bytes} {tag : OpenTag} {b : Attribute}
    (located : locateTag? text id = some tag)
    (written : Classes.choose? Classes.writeOrder (tag.attributes text) = some (b, old)) :
    setClasses text id classes = .ok [b.replaceValue (Encoding.formatDouble classes)] := by
  rw [setClasses, findTag_eq_ok.2 located]
  simp only [bind, Except.bind, setClassesOf, written]
  rfl

theorem choose?_of_readClasses? {text id classes : Bytes}
    (read : readClasses? text id = some classes) :
    ∃ tag a, locateTag? text id = some tag ∧
      Classes.choose? Classes.readOrder (tag.attributes text) = some (a, classes) := by
  obtain ⟨tag, located, read⟩ := Option.bind_eq_some_iff.1 read
  obtain ⟨⟨a, text⟩, chosen, rfl⟩ := Option.map_eq_some_iff.1 read
  exact ⟨tag, a, located, chosen⟩

end Edit

section

variable {tag : TagText} {p s id classes old : Bytes} {a : Attribute}

/-- The attribute that both orders choose, written anew. -/
theorem TagText.chosen_rewritten
    (read : Classes.choose? Classes.readOrder (tag.written p.length) = some (a, classes))
    (written : Classes.choose? Classes.writeOrder (tag.written p.length) = some (a, old))
    (alone : Byte.doubleQuote ∈ classes → ∀ name : Classes.AttributeName,
      ((tag.written p.length).filter (·.name = name.bytes)).length ≤ 1)
    {encoding : Encoding} {text : Bytes} (form : Encoding.DoubleForm classes encoding text)
    (parsed : Encoding.parse (Encoding.formatDouble classes) = some (encoding, text))
    (isValue : IsValue (Encoding.formatDouble classes)) (s : Bytes) :
    ∃ (edited : TagText) (earlier later later' : List Attribute) (a' : Attribute),
      (a.replaceValue (Encoding.formatDouble classes)).apply (p ++ (tag.text ++ s)) =
        p ++ (edited.text ++ s) ∧
      tag.written p.length = earlier ++ a :: later ∧
      edited.written p.length = earlier ++ a' :: later' ∧
      a'.name = a.name ∧ a'.raw = some (Encoding.formatDouble classes) ∧
      asWritten later' = asWritten later ∧
      ∀ order ∈ [Classes.readOrder, Classes.writeOrder],
        Classes.choose? order (edited.written p.length) = some (a', text) := by
  obtain ⟨-, f, earlier, later, split, hr, hw⟩ := Classes.chosen_both read written
  obtain ⟨edited, a', later', applied, rewritten, name, raw, same⟩ :=
    exists_rewritten split isValue s
  refine ⟨edited, earlier, later, later', a', applied, split, rewritten, name, raw, same,
    fun order mem => ?_⟩
  have literal : a'.classify = .literal encoding text := by
    rw [Attribute.classify, raw, AttributeValue.classify, parsed]
  rw [rewritten]
  refine Classes.choose?_anew hr hw mem ?_ same name literal
  cases form with
  | double | referred => exact .inl rfl
  | single quoted plain =>
      have named : a.name = f.1.bytes := (Classes.literalOf?_eq_some_iff.1 hr.literal).1
      have few := alone quoted f.1
      rw [split] at few
      have others := eq_false_of_filter_le_one few (decide_eq_true named)
      exact .inr ⟨rfl, fun b hb => of_decide_eq_false (others b hb)⟩

theorem WritesBack.unchanged {source : Bytes} {found : OpenTag}
    (located : locateTag? source id = some found)
    (chosen : Classes.choose? Classes.readOrder (found.attributes source) = some (a, classes))
    (accepted : (Edit.setClasses source id classes).map source.patch = .ok source) :
    WritesBack source source id classes where
  read := by
    rw [readClasses?, located, Option.bind_some, Classes.literal?, chosen]
    rfl
  others := by
    obtain ⟨-, earlier, later, split, -⟩ := Classes.choose?_eq_some_iff.1 chosen
    refine ⟨found, found, earlier, later, a, a.raw, located, located, split, chosen, ?_⟩
    rw [split, asWritten_append]
    rfl
  again := accepted

/-- The attribute that was written is not the one that was read. This is seen on it, unless the
text stayed as it was. -/
theorem eq_of_writesBack_apart {b : Attribute}
    (located : locateTag? (p ++ (tag.text ++ s)) id = some (tag.reading p.length))
    (read : Classes.choose? Classes.readOrder (tag.written p.length) = some (a, classes))
    (mem : b ∈ tag.written p.length) (apart : a ≠ b) {raw : Bytes} (isValue : IsValue raw)
    (stays : (locateTag? ((b.replaceValue raw).apply (p ++ (tag.text ++ s))) id).map (·.start) =
      some p.length)
    (back : WritesBack (p ++ (tag.text ++ s))
      ((b.replaceValue raw).apply (p ++ (tag.text ++ s))) id classes) :
    (b.replaceValue raw).apply (p ++ (tag.text ++ s)) = p ++ (tag.text ++ s) := by
  obtain ⟨before, behind, split⟩ := List.append_of_mem mem
  obtain ⟨edited, b', behind', applied, rewritten, name, written, same⟩ :=
    tag.exists_rewritten split isValue s
  obtain ⟨found, found', earlier, later, a', raw', here, there, split', chosen, others⟩ :=
    back.others
  obtain rfl : tag.reading p.length = found := Option.some.inj (located.symm.trans here)
  rw [tag.attributes_in] at split' chosen
  obtain rfl : a = a' := (Prod.mk.inj (Option.some.inj (read.symm.trans chosen))).1
  rw [applied] at stays there others
  have located' := TagText.locateTag?_at stays
  obtain rfl : edited.reading p.length = found' := Option.some.inj (located'.symm.trans there)
  rw [edited.attributes_in, rewritten] at others
  have elsewhere : earlier.length ≠ before.length := by
    intro equal
    rw [split] at split'
    exact apart (List.cons.inj (List.append_inj_right split' equal.symm)).1.symm
  have kept : (asWritten (earlier ++ a :: later))[before.length]? =
      (asWritten (before ++ b' :: behind'))[before.length]? := by
    have changed : asWritten (before ++ b' :: behind') =
        (asWritten (earlier ++ a :: later)).set earlier.length (a.name, raw') := by
      rw [others, asWritten_append]
      simp [asWritten]
    rw [changed, List.getElem?_set_ne elsewhere]
  have raw_eq : b.raw = some raw := by
    rw [← split', split] at kept
    simpa [asWritten, name, written] using kept
  refine replaceValue_self (sound_of_locateTag? located) ?_ raw_eq
  rwa [tag.attributes_in]

/-- An attribute that both orders choose is written back, if its list can be written between
quotes without references. -/
theorem writesBack_iff_of_agree
    (located : locateTag? (p ++ (tag.text ++ s)) id = some (tag.reading p.length))
    (read : Classes.choose? Classes.readOrder (tag.written p.length) = some (a, classes))
    (written : Classes.choose? Classes.writeOrder (tag.written p.length) = some (a, old))
    (even : Encoding.opensEscape classes = false)
    (alone : Byte.doubleQuote ∈ classes → ∀ name : Classes.AttributeName,
      ((tag.written p.length).filter (·.name = name.bytes)).length ≤ 1)
    (stays : (locateTag? ((a.replaceValue (Encoding.formatDouble classes)).apply
      (p ++ (tag.text ++ s))) id).map (·.start) = some p.length) :
    WritesBack (p ++ (tag.text ++ s)) ((a.replaceValue (Encoding.formatDouble classes)).apply
        (p ++ (tag.text ++ s))) id classes ↔
      ¬ (Byte.doubleQuote ∈ classes ∧ Byte.singleQuote ∈ classes) := by
  obtain ⟨encoding, text, form, parsed, isValue⟩ := Encoding.formatDouble_form even
  obtain ⟨edited, earlier, later, later', a', applied, split, rewritten, name, raw, same, chosen⟩ :=
    TagText.chosen_rewritten read written alone form parsed isValue s
  rw [applied] at stays ⊢
  have located' := TagText.locateTag?_at stays
  have attributes := edited.attributes_in p s
  have reads : readClasses? (p ++ (edited.text ++ s)) id = some text := by
    rw [readClasses?, located', Option.bind_some, Classes.literal?, attributes,
      chosen _ (by simp)]
    rfl
  constructor
  · rintro back ⟨quoted, both⟩
    have same : text = classes := Option.some.inj (reads.symm.trans back.read)
    cases form with
    | double plain => exact plain quoted
    | single _ plain => exact plain both
    | referred =>
        rw [← same] at quoted
        exact Encoding.not_mem_refer .double classes quoted
  · intro one
    obtain rfl : classes = text := by
      cases form with
      | double | single => rfl
      | referred quoted both => exact absurd ⟨quoted, both⟩ one
    refine ⟨reads, ⟨_, _, earlier, later, a, a'.raw, located, located', ?_, ?_, ?_⟩, ?_⟩
    · rw [tag.attributes_in, split]
    · rw [tag.attributes_in, read]
    · rw [attributes, rewritten, asWritten_append, ← same, ← name]
      rfl
    · rw [← attributes] at chosen
      rw [Edit.setClasses_of_choose? located' (chosen _ (by simp))]
      refine congrArg Except.ok (replaceValue_self (sound_of_locateTag? located') ?_ raw)
      rw [attributes, rewritten]
      simp

end

/-- The class list that was read is always accepted when it is written back. Let the element have
a tag as written and be located there before and after, and let the list not end in the middle of
an escape; where it holds a double quote, let each of the two names stand once at most. Then the
list is written back exactly if the text stays as it is, or both orders choose the same attribute
and the list does not hold both kinds of quotes. -/
theorem readClasses_writesBack {source id classes : Bytes}
    (read : readClasses? source id = some classes) :
    ∃ new, (Edit.setClasses source id classes).map source.patch = .ok new ∧
      ∀ (tag : TagText) (p s : Bytes), source = p ++ (tag.text ++ s) →
        locateTag? source id = some (tag.reading p.length) →
        (locateTag? new id).map (·.start) = some p.length →
        Encoding.opensEscape classes = false →
        (Byte.doubleQuote ∈ classes → ∀ name : Classes.AttributeName,
          ((tag.written p.length).filter (·.name = name.bytes)).length ≤ 1) →
        (WritesBack source new id classes ↔
          new = source ∨ Classes.Agree (tag.written p.length) ∧
            ¬ (Byte.doubleQuote ∈ classes ∧ Byte.singleQuote ∈ classes)) := by
  obtain ⟨found, a, located, chosen⟩ := Edit.choose?_of_readClasses? read
  obtain ⟨b, old, written⟩ := Classes.write_of_read chosen
  have accepted : (Edit.setClasses source id classes).map source.patch =
      .ok ((b.replaceValue (Encoding.formatDouble classes)).apply source) := by
    rw [Edit.setClasses_of_choose? located written]
    rfl
  refine ⟨_, accepted, ?_⟩
  rintro tag p s rfl here stays even alone
  obtain rfl : found = tag.reading p.length := Option.some.inj (located.symm.trans here)
  rw [tag.attributes_in] at chosen written
  have unchanged : (b.replaceValue (Encoding.formatDouble classes)).apply (p ++ (tag.text ++ s)) =
      p ++ (tag.text ++ s) → WritesBack (p ++ (tag.text ++ s))
        ((b.replaceValue (Encoding.formatDouble classes)).apply (p ++ (tag.text ++ s))) id
          classes := by
    intro same
    rw [same] at accepted ⊢
    exact .unchanged located (by rwa [tag.attributes_in]) accepted
  have agree : Classes.Agree (tag.written p.length) ↔ a = b := by
    rw [Classes.Agree, chosen, written]
    exact Option.some_inj
  rw [agree]
  by_cases same : a = b
  · subst same
    rw [← writesBack_iff_of_agree located chosen written even alone stays]
    exact ⟨fun back => .inr ⟨rfl, back⟩, fun h => h.elim unchanged And.right⟩
  · obtain ⟨-, -, -, -, isValue⟩ := Encoding.formatDouble_form even
    have mem := (Edit.choose?_literal written).1
    refine ⟨fun back => .inl ?_, fun h => h.elim unchanged fun both => absurd both.1 same⟩
    exact eq_of_writesBack_apart located chosen mem same isValue stays back

/-- The items of `<p className={x} class='b' data-eid="a">`. -/
def boundAndListedItems : List SpacedItem :=
  [([Byte.space], .valued (utf8 "className") [] [] (utf8 "{x}")),
    ([Byte.space], .quoted Byte.singleQuote (utf8 "class") (utf8 "b")),
    ([Byte.space], markerItem (utf8 "a"))]

theorem boundAndListedItems_valid : ∀ x ∈ boundAndListedItems, SpacedItem.Valid x := by
  have blank : AllBlank [Byte.space] := by decide
  have bound : Markup .block (utf8 "x") := .blockByte (by decide) .blockNil
  have list : QuotedText Byte.singleQuote (utf8 "b") := .ofBytes (by decide)
  have marked : QuotedText Byte.doubleQuote (utf8 "a") := .ofBytes (by decide)
  intro x mem
  simp only [boundAndListedItems, List.mem_cons, List.not_mem_nil, or_false] at mem
  obtain rfl | rfl | rfl := mem
  · exact ⟨List.cons_ne_nil _ _, blank, Edit.isItemName_className .component, .nil, .nil,
      .inl (.braces bound)⟩
  · exact ⟨List.cons_ne_nil _ _, blank, Item.valid_quoted rfl (by decide) list⟩
  · exact ⟨List.cons_ne_nil _ _, blank, Item.valid_quoted rfl isItemName_attributeName marked⟩

def boundAndListed : TagText where
  name := utf8 "p"
  items := boundAndListedItems
  gap := []
  slashed := false
  isName := markedParagraph.isName
  valid := boundAndListedItems_valid
  blank := .nil

/-- The attribute that is bound to an expression is passed over, the other one gets double
quotes. -/
theorem boundAndListed_writtenBack :
    let source := utf8 "<q '" ++ (boundAndListed.text ++ utf8 "</q>")
    let new := utf8 "<q '<p className={x} class=\"b\" data-eid=\"a\"></q>"
    readClasses? source (utf8 "a") = some (utf8 "b") ∧
      (Edit.setClasses source (utf8 "a") (utf8 "b")).map source.patch = .ok new ∧
      WritesBack source new (utf8 "a") (utf8 "b") := by
  intro source new
  have read : readClasses? source (utf8 "a") = some (utf8 "b") := by decide +kernel
  have written : (Edit.setClasses source (utf8 "a") (utf8 "b")).map source.patch = .ok new := by
    decide +kernel
  have located : locateTag? source (utf8 "a") = some (boundAndListed.reading 4) := by
    decide +kernel
  have stays : (locateTag? new (utf8 "a")).map (·.start) = some 4 := by decide +kernel
  have agree : Classes.Agree (boundAndListed.written 4) := by decide +kernel
  have plain : Byte.doubleQuote ∉ utf8 "b" := by decide
  obtain ⟨new', accepted, back⟩ := readClasses_writesBack read
  obtain rfl : new' = new := Except.ok.inj (accepted.symm.trans written)
  have iff := back boundAndListed (utf8 "<q '") (utf8 "</q>") rfl located stays (by decide)
    fun quoted => absurd quoted plain
  exact ⟨read, written, iff.2 (.inr ⟨agree, fun both => plain both.1⟩)⟩

/-- Lists that are not written back. The first is read from `class` and written over the other
list, in `className`; the second is read with references where it held double quotes; behind the
third the quote does not end the value. -/
theorem lists_lost_in_writing :
    let mixed := utf8 "<p class=\"a\" className=\"b\" data-eid=\"x\">t</p>"
    let mixed' := utf8 "<p class=\"a\" className=\"a\" data-eid=\"x\">t</p>"
    let both := utf8 "<p className=\x7b`a'\"`\x7d data-eid=\"x\">t</p>"
    let both' := utf8 "<p className=\"a'&quot;\" data-eid=\"x\">t</p>"
    let cut := utf8 "<p data-eid=\"x\" class=a\\>t</p>"
    let cut' := utf8 "<p data-eid=\"x\" class=\"a\\\">t</p>"
    (readClasses? mixed (utf8 "x") = some (utf8 "a") ∧
      (Edit.setClasses mixed (utf8 "x") (utf8 "a")).map mixed.patch = .ok mixed' ∧
      readAttribute? mixed (utf8 "x") (utf8 "className") =
        some (.literal .doubleQuoted (utf8 "b")) ∧
      readAttribute? mixed' (utf8 "x") (utf8 "className") =
        some (.literal .doubleQuoted (utf8 "a"))) ∧
    (readClasses? both (utf8 "x") = some (utf8 "a'\"") ∧
      (Edit.setClasses both (utf8 "x") (utf8 "a'\"")).map both.patch = .ok both' ∧
      readClasses? both' (utf8 "x") = some (utf8 "a'&quot;")) ∧
    readClasses? cut (utf8 "x") = some (utf8 "a\\") ∧
      (Edit.setClasses cut (utf8 "x") (utf8 "a\\")).map cut.patch = .ok cut' ∧
      readClasses? cut' (utf8 "x") = none := by
  decide +kernel

end MarkupEdit
