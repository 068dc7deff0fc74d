import MarkupEdit.Proofs.AttributeRoundTrip

/-!
The class attributes of a tag as written. Two orders of forms choose among them, one for reading
and one for writing; where there is only one class attribute, both can choose no other. A class
list that is set stands between double quotes, and either order finds it there.
-/

namespace MarkupEdit

namespace Classes

variable {form : Form} {order : List Form} {a b : Attribute} {attributes : List Attribute}
  {classes : Bytes}

theorem AttributeName.bytes_inj {n m : AttributeName} (h : n.bytes = m.bytes) : n = m := by
  cases n with
  | plain =>
      cases m with
      | plain => rfl
      | component => exact absurd h (by decide)
  | component =>
      cases m with
      | plain => exact absurd h (by decide)
      | component => rfl

theorem isClassAttribute_iff :
    isClassAttribute a = true ↔ ∃ name : AttributeName, a.name = name.bytes := by
  rw [isClassAttribute, Bool.or_eq_true, decide_eq_true_iff, decide_eq_true_iff]
  constructor
  · rintro (plain | component)
    · exact ⟨.plain, plain⟩
    · exact ⟨.component, component⟩
  · rintro ⟨name, named⟩
    cases name with
    | plain => exact .inl named
    | component => exact .inr named

theorem literalOf?_eq_none (h : isClassAttribute a = false) : literalOf? form a = none := by
  cases found : literalOf? form a with
  | none => rfl
  | some classes =>
      have named := (literalOf?_eq_some_iff.1 found).1
      rw [isClassAttribute_iff.2 ⟨form.1, named⟩] at h
      cases h

/-- An attribute is written in one form. -/
theorem form_unique {form' : Form} {classes' : Bytes} (h : literalOf? form a = some classes)
    (h' : literalOf? form' a = some classes') : form = form' := by
  obtain ⟨named, classified⟩ := literalOf?_eq_some_iff.1 h
  obtain ⟨named', classified'⟩ := literalOf?_eq_some_iff.1 h'
  rw [classified, AttributeValue.literal.injEq] at classified'
  exact Prod.ext (AttributeName.bytes_inj (named.symm.trans named')) classified'.1

theorem choose?_eq_none_iff :
    choose? order attributes = none ↔
      ∀ form ∈ order, ∀ a ∈ attributes, literalOf? form a = none := by
  simp [choose?]

/-- The forms that come before a form. -/
def before (order : List Form) (form : Form) : List Form := order.takeWhile (· ≠ form)

/-- An order chooses the attribute `a` between others: it is the first one in its form, and none
is in a form that comes before that. -/
structure Chosen (order : List Form) (form : Form) (earlier later : List Attribute) (a : Attribute)
    (classes : Bytes) : Prop where
  mem : form ∈ order
  literal : literalOf? form a = some classes
  passed : ∀ b ∈ earlier, literalOf? form b = none
  absent : ∀ f ∈ before order form, ∀ b ∈ earlier ++ a :: later, literalOf? f b = none

theorem before_append {front back : List Form} (first : form ∉ front) :
    before (front ++ form :: back) form = front := by
  rw [before, List.takeWhile_append_of_pos]
  · simp
  · intro f mem
    have other : f ≠ form := fun same => first (same ▸ mem)
    simpa using other

theorem choose?_eq_some_iff :
    choose? order attributes = some (a, classes) ↔
      ∃ form earlier later, attributes = earlier ++ a :: later ∧
        Chosen order form earlier later a classes := by
  rw [choose?, List.findSome?_eq_some_iff]
  constructor
  · rintro ⟨front, form, back, rfl, found, absent⟩
    obtain ⟨earlier, b, later, rfl, read, passed⟩ := List.findSome?_eq_some_iff.1 found
    obtain ⟨text, literal, same⟩ := Option.map_eq_some_iff.1 read
    cases same
    have none : ∀ f ∈ front, ∀ b ∈ earlier ++ a :: later, literalOf? f b = none :=
      fun f hf b hb => by simpa using List.findSome?_eq_none_iff.1 (absent f hf) b hb
    have first : form ∉ front := fun mem => by
      have lost := none form mem a (by simp)
      rw [literal] at lost
      cases lost
    refine ⟨form, earlier, later, rfl, by simp, literal, by simpa using passed, ?_⟩
    rwa [before_append first]
  · rintro ⟨form, earlier, later, rfl, chosen⟩
    obtain ⟨front, back, rfl, first⟩ := List.eq_append_cons_of_mem chosen.mem
    have absent := chosen.absent
    rw [before_append first] at absent
    refine ⟨front, form, back, rfl, ?_, fun f hf => ?_⟩
    · refine List.findSome?_eq_some_iff.2 ⟨earlier, a, later, rfl, by rw [chosen.literal]; rfl, ?_⟩
      simpa using chosen.passed
    · refine List.findSome?_eq_none_iff.2 fun b hb => ?_
      rw [absent f hf b hb]
      rfl

theorem not_mem_before : form ∉ before order form := fun mem => by
  have other := List.all_eq_true.1 List.all_takeWhile form mem
  simp at other

/-- An attribute in one form is in none that comes before it. -/
theorem Chosen.of_others {earlier later : List Attribute} (mem : form ∈ order)
    (literal : literalOf? form a = some classes)
    (passed : ∀ b ∈ earlier, literalOf? form b = none)
    (others : ∀ f ∈ before order form, ∀ b ∈ earlier ++ later, literalOf? f b = none) :
    Chosen order form earlier later a classes := by
  refine ⟨mem, literal, passed, fun f hf b hb => ?_⟩
  rw [List.mem_append, List.mem_cons] at hb
  obtain front | rfl | back := hb
  · exact others f hf b (List.mem_append_left _ front)
  · cases found : literalOf? f b with
    | none => rfl
    | some other =>
        rw [form_unique found literal] at hf
        exact absurd hf not_mem_before
  · exact others f hf b (List.mem_append_right _ back)

/-- The only class attribute of a tag is chosen. -/
theorem choose?_only {earlier later : List Attribute} (split : attributes = earlier ++ a :: later)
    (literal : literalOf? form a = some classes) (mem : form ∈ order)
    (alone : ∀ b ∈ earlier ++ later, isClassAttribute b = false) :
    choose? order attributes = some (a, classes) := by
  refine choose?_eq_some_iff.2 ⟨form, earlier, later, split, .of_others mem literal ?_ ?_⟩
  · exact fun b hb => literalOf?_eq_none (alone b (List.mem_append_left _ hb))
  · exact fun f _ b hb => literalOf?_eq_none (alone b hb)

end Classes

def Item.isClass (item : Item) : Bool :=
  item.name? = some (utf8 "class") || item.name? = some (utf8 "className")

theorem Item.isClass_iff {item : Item} :
    item.isClass = true ↔ ∃ name : Classes.AttributeName, item.name? = some name.bytes := by
  rw [isClass, Bool.or_eq_true, decide_eq_true_iff, decide_eq_true_iff]
  constructor
  · rintro (plain | component)
    · exact ⟨.plain, plain⟩
    · exact ⟨.component, component⟩
  · rintro ⟨name, named⟩
    cases name with
    | plain => exact .inl named
    | component => exact .inr named

/-- None of the items is a class attribute. -/
def Unclassed (items : List SpacedItem) : Prop := ∀ x ∈ items, x.2.isClass = false

theorem isClassAttribute_eq {item : Item} {i : Nat} {a : Attribute}
    (found : item.attribute? i = some a) : Classes.isClassAttribute a = item.isClass := by
  rw [Bool.eq_iff_iff, Classes.isClassAttribute_iff, Item.isClass_iff,
    (Item.attribute?_eq_some found).1]
  simp

theorem Unclassed.attributes {items : List SpacedItem} (h : Unclassed items) (i : Nat) :
    ∀ a ∈ itemAttributes i items, Classes.isClassAttribute a = false := by
  intro a mem
  obtain ⟨earlier, gap, item, later, split, found⟩ := mem_itemAttributes.1 mem
  rw [isClassAttribute_eq found]
  exact h (gap, item) (by simp [split])

theorem unclassed_of_attributes {items : List SpacedItem} {i : Nat}
    (h : ∀ a ∈ itemAttributes i items, Classes.isClassAttribute a = false) : Unclassed items := by
  intro x mem
  obtain ⟨earlier, later, split⟩ := List.append_of_mem mem
  cases found : x.2.attribute? (i + (itemsText earlier).length + x.1.length) with
  | none =>
      rw [Item.isClass, Item.attribute?_eq_none found]
      rfl
  | some a =>
      rw [← isClassAttribute_eq found]
      exact h a (mem_itemAttributes.2 ⟨earlier, x.1, x.2, later, split, found⟩)

theorem Unclassed.lookup_eq_none {items : List SpacedItem} (h : Unclassed items)
    (name : Classes.AttributeName) : lookup? items name.bytes = none :=
  lookup?_eq_none.2 fun x mem named => by
    have isClass := Item.isClass_iff.2 ⟨name, named⟩
    rw [h x mem] at isClass
    cases isClass

/-- At most one of the items is a class attribute. -/
def TagText.ClassedOnce (tag : TagText) : Prop := (tag.items.filter (·.2.isClass)).length ≤ 1

instance (tag : TagText) : Decidable tag.ClassedOnce :=
  inferInstanceAs (Decidable (_ ≤ _))

theorem eq_false_of_filter_le_one {α : Type} {p : α → Bool} {earlier later : List α} {x : α}
    (few : ((earlier ++ x :: later).filter p).length ≤ 1) (first : p x = true) :
    ∀ y ∈ earlier ++ later, p y = false := by
  rw [List.filter_append, List.filter_cons, if_pos first, List.length_append,
    List.length_cons] at few
  have empty : ((earlier ++ later).filter p).length = 0 := by
    rw [List.filter_append, List.length_append]
    omega
  rw [List.length_eq_zero_iff, List.filter_eq_nil_iff] at empty
  exact fun y mem => by simpa using empty y mem

theorem TagText.ClassedOnce.unclassed {tag : TagText} (once : tag.ClassedOnce)
    {earlier later : List SpacedItem} {x : SpacedItem} (split : tag.items = earlier ++ x :: later)
    (isClass : x.2.isClass = true) : Unclassed (earlier ++ later) := by
  rw [ClassedOnce, split] at once
  exact eq_false_of_filter_le_one once isClass

theorem Encoding.Quotable.isValue {value : Bytes} (quotable : Quotable value) :
    IsValue (doubleQuoted.delimit value) :=
  isValue_quote rfl quotable.noQuote quotable.noBackslash

/-- The only class attribute of a tag is set, between double quotes. -/
structure ClassSetting (tag : TagText) (classes : Bytes) where
  name : Classes.AttributeName
  setting : Setting tag name.bytes classes
  doubled : setting.encoding = .doubleQuoted
  alone : Unclassed (setting.slot.earlier ++ setting.slot.later)

theorem Setting.unclassed {tag : TagText} {name : Classes.AttributeName} {classes : Bytes}
    (setting : Setting tag name.bytes classes) (once : tag.ClassedOnce)
    (old : setting.slot.old ≠ []) : Unclassed (setting.slot.earlier ++ setting.slot.later) := by
  obtain ⟨x, rest, old⟩ := List.exists_cons_of_ne_nil old
  have isClass : x.2.isClass = true := Item.isClass_iff.2 ⟨name, setting.old x (by simp [old])⟩
  have split : tag.items = setting.slot.earlier ++ x :: (rest ++ setting.slot.later) := by
    rw [setting.slot.split, old, List.cons_append]
  intro y mem
  refine once.unclassed split isClass y ?_
  rw [List.mem_append] at mem ⊢
  exact mem.imp_right (List.mem_append_right rest)

namespace ClassSetting

variable {tag : TagText} {classes : Bytes} (set : ClassSetting tag classes) {p s id : Bytes}

def result : TagText := set.setting.result

def text (p s : Bytes) : Bytes := set.setting.text p s

theorem attributes_result :
    (set.result.reading p.length).attributes (set.text p s) = set.result.written p.length :=
  set.result.attributes_in p s

theorem choose?_result {order : List Classes.Form}
    (mem : (set.name, Encoding.doubleQuoted) ∈ order) :
    Classes.choose? order (set.result.written p.length) =
      some (set.setting.written p, classes) := by
  have written := set.setting.attribute?_item (p := p)
  have split : set.result.written p.length =
      itemAttributes (p.length + 1 + tag.name.length) set.setting.slot.earlier ++
        set.setting.written p :: itemAttributes (p.length + 1 + tag.name.length +
          (itemsText set.setting.slot.earlier).length + set.setting.gap.length +
            set.setting.item.text.length) set.setting.slot.later := by
    change itemAttributes (p.length + 1 + tag.name.length)
      (set.setting.slot.earlier ++
        (set.setting.gap, set.setting.item) :: set.setting.slot.later) = _
    rw [itemAttributes_append, itemAttributes, written]
    rfl
  have literal : Classes.literalOf? (set.name, .doubleQuoted) (set.setting.written p) =
      some classes :=
    Classes.literalOf?_eq_some_iff.2 ⟨rfl, by rw [set.setting.classify_written, set.doubled]⟩
  refine Classes.choose?_only split literal mem fun b hb => ?_
  rcases List.mem_append.1 hb with hb | hb
  · exact Unclassed.attributes (fun x hx => set.alone x (List.mem_append_left _ hx)) _ b hb
  · exact Unclassed.attributes (fun x hx => set.alone x (List.mem_append_right _ hx)) _ b hb

theorem mem_readOrder : (set.name, Encoding.doubleQuoted) ∈ Classes.readOrder := by
  cases set.name <;> decide

theorem mem_writeOrder : (set.name, Encoding.doubleQuoted) ∈ Classes.writeOrder := by
  cases set.name <;> decide

/-- The class list is read back. -/
theorem readClasses?_text
    (located : locateTag? (set.text p s) id = some (set.result.reading p.length)) :
    readClasses? (set.text p s) id = some classes := by
  rw [readClasses?, located, Option.bind_some, Classes.literal?, set.attributes_result,
    set.choose?_result set.mem_readOrder]
  rfl

theorem currentClasses_text :
    Edit.currentClasses (set.text p s) id (set.result.reading p.length) = .ok (some classes) := by
  rw [Edit.currentClasses, Classes.literal?, set.attributes_result,
    set.choose?_result set.mem_readOrder]
  rfl

/-- A list that is set anew takes the place of the one before it. -/
theorem setClassesOf_text (later : Bytes) :
    Edit.setClassesOf (set.text p s) id (set.result.reading p.length) later =
      .ok [(set.setting.written p).replaceValue (Encoding.doubleQuoted.format later)] := by
  rw [Edit.setClassesOf, set.attributes_result, set.choose?_result set.mem_writeOrder]

/-- The class attribute with another list in it. -/
def other {later : Bytes} (quotable : Encoding.Quotable later) : ClassSetting tag later where
  name := set.name
  setting :=
    { slot := set.setting.slot
      gap := set.setting.gap
      before := set.setting.before
      after := set.setting.after
      encoding := .doubleQuoted
      verbatim := quotable.verbatim
      valid := by
        obtain ⟨apart, blank, isName, hbefore, hafter, -⟩ := set.setting.valid
        exact ⟨apart, blank, isName, hbefore, hafter, quotable.isValue⟩
      first := set.setting.first
      old := set.setting.old }
  doubled := rfl
  alone := set.alone

/-- Setting one list and then another one comes to setting the other one. -/
theorem replace_text {later : Bytes} (quotable : Encoding.Quotable later) :
    ((set.setting.written p).replaceValue (Encoding.doubleQuoted.format later)).apply
      (set.text p s) = (set.other quotable).text p s := by
  let front := set.setting.slot.front p ++ (set.setting.gap ++ (set.name.bytes ++
    (set.setting.before ++ Byte.equals :: set.setting.after)))
  have whole : set.text p s =
      front ++ (set.setting.encoding.delimit classes ++ set.setting.slot.back s) := by
    rw [text, set.setting.text_eq]
    simp [front, Setting.item, Item.text]
  have whole' : (set.other quotable).text p s =
      front ++ (Encoding.doubleQuoted.delimit later ++ set.setting.slot.back s) := by
    rw [text, Setting.text_eq]
    simp [front, Setting.item, Item.text, other]
  have start : ((set.setting.written p).replaceValue
      (Encoding.doubleQuoted.format later)).start = front.length := by
    simp only [front, Setting.written, Attribute.replaceValue, List.length_append,
      List.length_cons]
    omega
  rw [whole, Patch.apply_between start rfl, whole', ← quotable.verbatim.again]
  rfl

end ClassSetting

namespace Edit

variable {tag : TagText} {id classes p s : Bytes} {patches : List Patch}

/-- What an accepted setting of the classes does to a tag with at most one class attribute. -/
theorem setClassesOf_setting (quotable : Encoding.Quotable classes) (once : tag.ClassedOnce)
    (marked : lookup? tag.items Marker.attributeName ≠ none)
    (edited : setClassesOf (p ++ (tag.text ++ s)) id (tag.reading p.length) classes = .ok patches) :
    ∃ set : ClassSetting tag classes, (p ++ (tag.text ++ s)).patch patches = set.text p s := by
  rw [setClassesOf, tag.attributes_in] at edited
  split at edited
  next a old chosen =>
    cases edited
    obtain ⟨mem, form, literal⟩ := literalOf?_of_choose? chosen
    have named := (Classes.literalOf?_eq_some_iff.1 literal).1
    obtain ⟨earlier, gap, item, later, split, found⟩ := mem_itemAttributes.1 mem
    have itemNamed : item.name? = some form.1.bytes := by
      rw [(Item.attribute?_eq_some found).1, named]
    have alone := once.unclassed split (Item.isClass_iff.2 ⟨form.1, itemNamed⟩)
    have first : lookup? earlier form.1.bytes = none :=
      Unclassed.lookup_eq_none (fun x hx => alone x (List.mem_append_left _ hx)) form.1
    have present : (tag.reading p.length).attribute? (p ++ (tag.text ++ s)) form.1.bytes =
        some a := by
      rw [OpenTag.attribute?, tag.attributes_in, TagText.written, split,
        find?_first first itemNamed, found]
    obtain ⟨setting, doubled, old, text⟩ :=
      Setting.ofVerbatim quotable.verbatim quotable.isValue present
    refine ⟨⟨form.1, setting, doubled, setting.unclassed once old⟩, ?_⟩
    rw [quotable.verbatim.again]
    exact text
  next =>
    split at edited
    · cases edited
    next absent =>
      cases edited
      have unclassed : Unclassed tag.items :=
        unclassed_of_attributes fun a mem => by simpa using List.find?_eq_none.1 absent a mem
      obtain ⟨setting, doubled, text⟩ := Setting.ofInsert (p := p) (s := s)
        (isItemName_className (newClassName (p ++ (tag.text ++ s)) tag.name)) quotable.verbatim
        quotable.isValue marked (unclassed.lookup_eq_none _)
      refine ⟨⟨_, setting, doubled, fun x mem => unclassed x ?_⟩, text⟩
      rw [setting.slot.split]
      rw [List.mem_append] at mem ⊢
      exact mem.imp_right (List.mem_append_right _)

end Edit

end MarkupEdit
