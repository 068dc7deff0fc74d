import MarkupEdit.Markup.Attribute
import MarkupEdit.Proofs.Balance

/-!
Opening tags as written: a name, items each after white space, and the end of the tag. An item
is a spread block, a name, or a name with a value. Scanning the written tag gives it back, and
its attributes are the items that are no spreads, each where it stands.
-/

namespace MarkupEdit

def isItemNameByte (c : UInt8) : Bool :=
  Attribute.isAttributeNameByte c && c != Byte.less && c != Byte.greater

def isBareByte (c : UInt8) : Bool :=
  !(Byte.isBlank c || Byte.isQuote c || c == Byte.backtick || c == Byte.openBrace ||
    c == Byte.less || c == Byte.greater || c == Byte.slash)

/-- A byte of a value without delimiters, in which slashes may stand. -/
def isWordByte (c : UInt8) : Bool := isBareByte c || c == Byte.slash

def IsItemName (name : Bytes) : Prop := name ≠ [] ∧ ∀ c ∈ name, isItemNameByte c = true

instance (name : Bytes) : Decidable (IsItemName name) :=
  decidable_of_iff ((!name.isEmpty && name.all isItemNameByte) = true) (by simp [IsItemName])

def IsValue (v : Bytes) : Prop :=
  Markup .literal v ∨ (v ≠ [] ∧ ∀ c ∈ v, isBareByte c = true)

/-- What may stand behind the name of an opening tag. A value comes with the white space before
and after its `=`. -/
inductive Item where
  | spread (body : Bytes)
  | flag (name : Bytes)
  | valued (name before after value : Bytes)

namespace Item

def quoted (quote : UInt8) (name value : Bytes) : Item :=
  valued name [] [] (quote :: value ++ [quote])

def text : Item → Bytes
  | spread body => Byte.openBrace :: body ++ [Byte.closeBrace]
  | flag name => name
  | valued name before after value => name ++ (before ++ Byte.equals :: (after ++ value))

def Valid : Item → Prop
  | spread body => Markup .block body
  | flag name => IsItemName name
  | valued name before after value =>
      IsItemName name ∧ AllBlank before ∧ AllBlank after ∧ IsValue value

/-- A word may stand in place of a value without slashes. -/
def Loose : Item → Prop
  | spread body => Markup .block body
  | flag name => IsItemName name
  | valued name before after value =>
      IsItemName name ∧ AllBlank before ∧ AllBlank after ∧
        (Markup .literal value ∨ (value ≠ [] ∧ ∀ c ∈ value, isWordByte c = true))

theorem valid_quoted {quote : UInt8} {name value : Bytes} (hq : Byte.isQuote quote = true)
    (hn : IsItemName name) (hv : QuotedText quote value) : (quoted quote name value).Valid :=
  ⟨hn, .nil, .nil, .inl (.quoted hq hv)⟩

def attribute? (i : Nat) : Item → Option Attribute
  | spread _ => none
  | flag name => some ⟨i, name, none⟩
  | valued name before after value =>
      some ⟨i, name, some ⟨i + name.length + before.length + 1 + after.length, value⟩⟩

end Item

/-- An item and the white space in front of it. -/
abbrev SpacedItem := Bytes × Item

structure SpacedItem.Valid (x : SpacedItem) : Prop where
  apart : x.1 ≠ []
  blank : AllBlank x.1
  item : x.2.Valid

/-- An item that may touch the one before. -/
structure SpacedItem.Loose (x : SpacedItem) : Prop where
  blank : AllBlank x.1
  item : x.2.Loose

def itemsText : List SpacedItem → Bytes
  | [] => []
  | (gap, item) :: rest => gap ++ (item.text ++ itemsText rest)

def itemAttributes (i : Nat) : List SpacedItem → List Attribute
  | [] => []
  | (gap, item) :: rest =>
      (item.attribute? (i + gap.length)).toList ++
        itemAttributes (i + gap.length + item.text.length) rest

structure TagText where
  name : Bytes
  items : List SpacedItem
  gap : Bytes
  slashed : Bool
  isName : IsTagName name
  valid : ∀ x ∈ items, SpacedItem.Valid x
  blank : AllBlank gap

namespace TagText

def attributes (tag : TagText) : Bytes := itemsText tag.items ++ tag.gap

def text (tag : TagText) : Bytes := openTagText tag.name tag.attributes tag.slashed

def closesItself (tag : TagText) : Bool := tag.slashed || isVoidElement tag.name

def ofQuoted (name : Bytes) (quote : UInt8) (label value : Bytes) (isName : IsTagName name)
    (hq : Byte.isQuote quote = true) (hn : IsItemName label) (hv : QuotedText quote value) :
    TagText where
  name := name
  items := [([Byte.space], .quoted quote label value)]
  gap := []
  slashed := false
  isName := isName
  valid := List.forall_mem_singleton.2
    ⟨List.cons_ne_nil _ _, show AllBlank [Byte.space] by decide, Item.valid_quoted hq hn hv⟩
  blank := .nil

/-- What the tag is read as where it stands at offset `i`. -/
def reading (tag : TagText) (i : Nat) : OpenTag :=
  ⟨i, tag.name, i + 1 + tag.name.length + tag.attributes.length, tag.slashed⟩

end TagText

theorem isPlain_of_isBlank {c : UInt8} (h : Byte.isBlank c = true) :
    Part.attributes.isPlain c = true := by
  simp only [Byte.isBlank, Bool.or_eq_true, beq_iff_eq] at h
  rcases h with (((rfl | rfl) | rfl) | rfl) | rfl <;> decide

theorem isPlain_of_isItemNameByte {c : UInt8} (h : isItemNameByte c = true) :
    Part.attributes.isPlain c = true := by
  simp_all [isItemNameByte, Attribute.isAttributeNameByte, Part.isPlain]

theorem isPlain_of_isWordByte {c : UInt8} (h : isWordByte c = true) :
    Part.attributes.isPlain c = true := by
  rw [isWordByte, Bool.or_eq_true, beq_iff_eq] at h
  rcases h with bare | rfl
  · simp_all [isBareByte, Part.isPlain]
  · decide

theorem Item.Valid.loose {item : Item} (h : item.Valid) : item.Loose := by
  cases item with
  | spread body => exact h
  | flag name => exact h
  | valued name before after value =>
      obtain ⟨hn, hbefore, hafter, hv⟩ := h
      refine ⟨hn, hbefore, hafter, hv.imp_right fun bare => ⟨bare.1, fun c hc => ?_⟩⟩
      rw [isWordByte, bare.2 c hc, Bool.true_or]

theorem Item.Loose.markup {item : Item} (h : item.Loose) {b : Bytes}
    (hb : Markup .attributes b) : Markup .attributes (item.text ++ b) := by
  cases item with
  | spread body => exact .attributesLiteral (.braces h) hb
  | flag name => exact .attributesBytes (fun c hc => isPlain_of_isItemNameByte (h.2 c hc)) hb
  | valued name before after value =>
      obtain ⟨hn, hbefore, hafter, hv⟩ := h
      have tail : Markup .attributes (value ++ b) := by
        rcases hv with literal | ⟨-, word⟩
        · exact .attributesLiteral literal hb
        · exact .attributesBytes (fun c hc => isPlain_of_isWordByte (word c hc)) hb
      simp only [Item.text, List.append_assoc, List.cons_append]
      apply Markup.attributesBytes fun c hc => isPlain_of_isItemNameByte (hn.2 c hc)
      apply Markup.attributesBytes fun c hc => isPlain_of_isBlank (hbefore c hc)
      apply Markup.attributesByte (by decide)
      exact .attributesBytes (fun c hc => isPlain_of_isBlank (hafter c hc)) tail

theorem SpacedItem.Valid.loose {x : SpacedItem} (h : x.Valid) : x.Loose := ⟨h.blank, h.item.loose⟩

theorem Item.length_text_valued (name before after value : Bytes) :
    (Item.valued name before after value).text.length =
      name.length + before.length + 1 + after.length + value.length := by
  simp only [Item.text, List.length_append, List.length_cons]
  omega

theorem Item.Loose.head {item : Item} (h : item.Loose) :
    ∃ c t, item.text = c :: t ∧ (c = Byte.openBrace ∨ isItemNameByte c = true) := by
  cases item with
  | spread body => exact ⟨_, _, rfl, .inl rfl⟩
  | flag name =>
      obtain ⟨c, t, rfl⟩ := List.exists_cons_of_ne_nil h.1
      exact ⟨c, t, rfl, .inr (h.2 c List.mem_cons_self)⟩
  | valued name before after value =>
      obtain ⟨c, t, rfl⟩ := List.exists_cons_of_ne_nil h.1.1
      exact ⟨c, _, rfl, .inr (h.1.2 c List.mem_cons_self)⟩

theorem getLast?_literal {l : Bytes} (h : Markup .literal l) : l.getLast? ≠ some Byte.slash := by
  cases h with
  | quoted hq hb =>
      rw [List.getLast?_concat]
      rintro ⟨⟩
      exact absurd hq (by decide)
  | backticks hb | braces hb =>
      rw [List.getLast?_concat]
      decide

theorem getLast?_ne_slash {p : UInt8 → Bool} (hp : p Byte.slash = false) {b : Bytes}
    (h : ∀ c ∈ b, p c = true) : b.getLast? ≠ some Byte.slash := by
  intro last
  have := h _ (List.mem_of_getLast? last)
  simp [hp] at this

theorem getLast?_append_ne {u b : Bytes} {c : UInt8} (hu : u.getLast? ≠ some c)
    (hb : b.getLast? ≠ some c) : (u ++ b).getLast? ≠ some c := by
  rw [List.getLast?_append]
  cases h : b.getLast? with
  | none => simpa using hu
  | some d => simpa [h] using hb

theorem getLast?_append_ne_nil {b : Bytes} {c : UInt8} (hb : b.getLast? ≠ some c)
    (ne : b ≠ []) (u : Bytes) : (u ++ b).getLast? ≠ some c := by
  rw [List.getLast?_append, List.getLast?_eq_some_getLast ne] at *
  exact hb

theorem Item.getLast? {item : Item} (h : item.Valid) : item.text.getLast? ≠ some Byte.slash := by
  cases item with
  | spread body => exact getLast?_literal (.braces h)
  | flag name => exact getLast?_ne_slash (by decide) h.2
  | valued name before after value =>
      obtain ⟨-, -, -, hv⟩ := h
      have last : value.getLast? ≠ some Byte.slash ∧ value ≠ [] := by
        rcases hv with literal | ⟨ne, bare⟩
        · obtain ⟨c, t, rfl, -⟩ := Scan.head_literal literal
          exact ⟨getLast?_literal literal, by simp⟩
        · exact ⟨getLast?_ne_slash (by decide) bare, ne⟩
      obtain ⟨last, ne⟩ := last
      have : (Item.valued name before after value).text =
          (name ++ (before ++ Byte.equals :: after)) ++ value := by
        simp [Item.text]
      rw [this]
      exact getLast?_append_ne_nil last ne _

theorem itemsText_markup {items : List SpacedItem} (h : ∀ x ∈ items, SpacedItem.Loose x)
    {b : Bytes} (hb : Markup .attributes b) : Markup .attributes (itemsText items ++ b) := by
  induction items with
  | nil => exact hb
  | cons x rest ih =>
      obtain ⟨gap, item⟩ := x
      obtain ⟨⟨blank, loose⟩, later⟩ := List.forall_mem_cons.1 h
      simp only [itemsText, List.append_assoc]
      apply Markup.attributesBytes fun c hc => isPlain_of_isBlank (blank c hc)
      exact loose.markup (ih later)

theorem markup_blank {gap : Bytes} (blank : AllBlank gap) : Markup .attributes gap := by
  have bytes := Markup.attributesBytes (fun c hc => isPlain_of_isBlank (blank c hc)) .attributesNil
  rwa [List.append_nil] at bytes

theorem getLast?_itemsText {items : List SpacedItem} (h : ∀ x ∈ items, SpacedItem.Valid x) :
    (itemsText items).getLast? ≠ some Byte.slash := by
  induction items with
  | nil => simp [itemsText]
  | cons x rest ih =>
      obtain ⟨gap, item⟩ := x
      have hx := h _ List.mem_cons_self
      have blank := getLast?_ne_slash (p := Byte.isBlank) (by decide) hx.blank
      have tail := ih fun y hy => h y (List.mem_cons_of_mem _ hy)
      exact getLast?_append_ne blank (getLast?_append_ne (Item.getLast? hx.item) tail)

/-- What stands behind the name of a tag begins with white space. -/
theorem head?_itemsText {items : List SpacedItem} (h : ∀ x ∈ items, SpacedItem.Valid x)
    {gap : Bytes} (hg : AllBlank gap) {c : UInt8}
    (hc : (itemsText items ++ gap).head? = some c) : Byte.isBlank c = true := by
  cases items with
  | nil => exact hg c (List.mem_of_head? hc)
  | cons x rest =>
      have hx := h _ List.mem_cons_self
      obtain ⟨d, t, ht⟩ := List.exists_cons_of_ne_nil hx.apart
      have : d = c := by simpa [itemsText, ht] using hc
      exact hx.blank c (by simp [ht, this])

/-- The name of an attribute with a value ends at white space or `=`. -/
theorem head?_blanks_equals {before : Bytes} (h : AllBlank before) (t : Bytes) {c : UInt8}
    (hc : (before ++ Byte.equals :: t).head? = some c) :
    Byte.isBlank c = true ∨ c = Byte.equals := by
  cases before with
  | nil => exact .inr (Option.some.inj hc).symm
  | cons d before =>
      cases hc
      exact .inl (h c List.mem_cons_self)

namespace TagText

theorem attributes_markup (tag : TagText) : Markup .attributes tag.attributes :=
  itemsText_markup (fun x hx => (tag.valid x hx).loose) (markup_blank tag.blank)

theorem attributes_bounded (tag : TagText) : Bounded tag.attributes tag.slashed where
  apart c hc := Scan.not_isNameByte_of_isBlank (head?_itemsText tag.valid tag.blank hc)
  unslashed _ := getLast?_append_ne (getLast?_itemsText tag.valid)
    (getLast?_ne_slash (p := Byte.isBlank) (by decide) tag.blank)

theorem openTag?_text (tag : TagText) (i : Nat) (rest : Bytes) :
    Scan.openTag? i (tag.text.tail ++ rest) = some (tag.reading i) := by
  have split : tag.text.tail ++ rest =
      tag.name ++ (tag.attributes ++ (tagEnding tag.slashed ++ rest)) := by
    simp [text, openTagText]
  rw [split, Scan.openTag?_markup tag.isName tag.attributes_markup tag.attributes_bounded]
  rfl

theorem stop_reading (tag : TagText) (i : Nat) :
    (tag.reading i).stop = i + tag.text.length :=
  Scan.stop_openTagText tag.name tag.attributes tag.slashed i

end TagText

end MarkupEdit
