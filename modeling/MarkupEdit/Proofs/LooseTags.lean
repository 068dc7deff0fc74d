import MarkupEdit.Proofs.ItemScan

/-!
Opening tags whose parts may touch. An item may stand right behind the name of the tag or behind
another item, if that does not go on with its first byte: behind a value between delimiters any
item may stand, behind a value without them none. The attributes of such a tag are read back
exactly. What is behind the tag has no part in it, although the scan of a value looks there too.
-/

namespace MarkupEdit

/-- What a part of a tag ends with. -/
inductive Edge where
  | name
  | flag
  /-- A value without delimiters. -/
  | word
  | closed
  deriving DecidableEq

/-- The bytes with which a part would go on. -/
def Edge.goesOn : Edge → UInt8 → Bool
  | name, c => isNameByte c
  | flag, c => Attribute.isAttributeNameByte c
  | word, c => !Byte.isBlank c
  | closed, _ => false

def Item.edge : Item → Edge
  | spread _ => .closed
  | flag _ => .flag
  | valued _ _ _ value => if value.head?.any Attribute.opensValue then .closed else .word

/-- No part of a tag goes on with what stands behind it. -/
def Separate : Edge → List SpacedItem → Prop
  | _, [] => True
  | edge, (gap, item) :: rest =>
    (gap ++ item.text).head?.any edge.goesOn = false ∧ Separate item.edge rest

instance : (edge : Edge) → (items : List SpacedItem) → Decidable (Separate edge items)
  | _, [] => .isTrue trivial
  | edge, (gap, item) :: rest =>
    have : Decidable (Separate item.edge rest) := instDecidableSeparate item.edge rest
    inferInstanceAs (Decidable ((gap ++ item.text).head?.any edge.goesOn = false ∧
      Separate item.edge rest))

/-- What the last of some items ends with. -/
def Edge.behind : Edge → List SpacedItem → Edge
  | edge, [] => edge
  | _, (_, item) :: rest => behind item.edge rest

theorem separate_append {edge : Edge} {earlier later : List SpacedItem} :
    Separate edge (earlier ++ later) ↔
      Separate edge earlier ∧ Separate (edge.behind earlier) later := by
  induction earlier generalizing edge with
  | nil => simp [Separate, Edge.behind]
  | cons x rest ih =>
      obtain ⟨gap, item⟩ := x
      simp only [List.cons_append, Separate, Edge.behind, ih, and_assoc]

theorem Edge.goesOn_blank (edge : Edge) {c : UInt8} (blank : Byte.isBlank c = true) :
    edge.goesOn c = false := by
  cases edge with
  | name => exact Scan.not_isNameByte_of_isBlank blank
  | flag => exact Attribute.not_isAttributeNameByte_of_isBlank blank
  | word => simp [goesOn, blank]
  | closed => rfl

theorem opensValue_of_literal {v : Bytes} (literal : Markup .literal v) :
    v.head?.any Attribute.opensValue = true := by
  obtain ⟨c, t, rfl, quote | rfl | rfl⟩ := Scan.head_literal literal
  · simp [Attribute.opensValue, quote]
  · rfl
  · rfl

theorem opensValue_of_word {c : UInt8} (h : isWordByte c = true) :
    Attribute.opensValue c = false := by
  rw [isWordByte, Bool.or_eq_true, beq_iff_eq] at h
  rcases h with bare | rfl
  · simp_all [isBareByte, Attribute.opensValue]
  · decide

theorem isBlank_of_word {c : UInt8} (h : isWordByte c = true) : Byte.isBlank c = false := by
  rw [isWordByte, Bool.or_eq_true, beq_iff_eq] at h
  rcases h with bare | rfl
  · simp_all [isBareByte]
  · decide

theorem isBlank_of_opensValue {c : UInt8} (h : Attribute.opensValue c = true) :
    Byte.isBlank c = false := by
  simp only [Attribute.opensValue, Byte.isQuote, Bool.or_eq_true, beq_iff_eq] at h
  rcases h with ((rfl | rfl) | rfl) | rfl <;> decide

theorem edge_of_word {name before after v : Bytes} (word : ∀ c ∈ v, isWordByte c = true) :
    (Item.valued name before after v).edge = .word := by
  have bare : v.head?.any Attribute.opensValue = false := by
    cases v with
    | nil => rfl
    | cons c v => exact opensValue_of_word (word c List.mem_cons_self)
  rw [Item.edge, bare]
  rfl

namespace Attribute

/-- Up to a limit there is white space, then the limit or the begin of an item. -/
def Ahead (limit i : Nat) (s : Bytes) : Prop :=
  ∃ blanks later, s = blanks ++ later ∧ AllBlank blanks ∧ i + blanks.length ≤ limit ∧
    (limit = i + blanks.length ∨
      ∃ c t, later = c :: t ∧ Byte.isBlank c = false ∧ c ≠ Byte.equals)

/-- An item that does not go on with what stands behind it is read as it is written. -/
theorem scan_loose {item : Item} (loose : item.Loose) {limit i : Nat} {s : Bytes}
    (fits : i + item.text.length ≤ limit)
    (apart : limit = i + item.text.length ∨ ∀ c, s.head? = some c → item.edge.goesOn c = false)
    (ahead : Ahead limit (i + item.text.length) s) :
    scan limit i (item.text ++ s) =
      (item.attribute? i).toList ++ scan limit (i + item.text.length) s := by
  cases item with
  | spread body =>
      have inside : i < limit := by
        simp only [Item.text, List.length_append, List.length_cons] at fits
        omega
      rw [scan_spread loose inside]
      rfl
  | flag name =>
      obtain ⟨blanks, later, rfl, hblanks, room, stop⟩ := ahead
      exact scan_flag loose fits apart (rawValue?_flag hblanks room stop)
  | valued name before after v =>
      obtain ⟨isName, hbefore, hafter, isValue⟩ := loose
      have width := Item.length_text_valued name before after v
      have value : rawValue? limit (i + name.length)
          (before ++ Byte.equals :: (after ++ (v ++ s))) =
            some (some ⟨i + name.length + before.length + 1 + after.length, v⟩) := by
        rcases isValue with literal | ⟨ne, word⟩
        · refine rawValue?_value hbefore hafter ?_ (by omega) (valueEnd_literal literal _ _ _)
          obtain ⟨c, t, rfl, -⟩ := Scan.head_literal literal
          rintro d ⟨⟩
          exact isBlank_of_opensValue (opensValue_of_literal literal)
        · rw [edge_of_word word] at apart
          obtain ⟨c, t, rfl⟩ := List.exists_cons_of_ne_nil ne
          refine rawValue?_value hbefore hafter ?_ (by omega) (valueEnd_word ?_ ne
            (fun d hd => isBlank_of_word (word d hd)) (by omega) (apart.imp (by omega) ?_))
          · rintro d ⟨⟩
            exact isBlank_of_word (word c List.mem_cons_self)
          · rintro d ⟨⟩
            exact opensValue_of_word (word c List.mem_cons_self)
          · intro stop d hd
            simpa [Edge.goesOn] using stop d hd
      exact scan_valued isName hbefore fits value

end Attribute

theorem Separate.head {edge : Edge} {x : SpacedItem} {rest : List SpacedItem}
    (separate : Separate edge (x :: rest)) (loose : x.2.Loose) {s : Bytes} {c : UInt8}
    (hc : (itemsText (x :: rest) ++ s).head? = some c) : edge.goesOn c = false := by
  obtain ⟨gap, item⟩ := x
  obtain ⟨d, t, text, -⟩ := loose.head
  have text : item.text = d :: t := text
  have first : (gap ++ item.text).head? = some c := by
    rw [← hc, itemsText, text]
    cases gap <;> rfl
  have apart := separate.1
  rwa [first, Option.any_some] at apart

section

variable {items : List SpacedItem} (valid : ∀ x ∈ items, SpacedItem.Loose x)

include valid

theorem ahead_items {limit i : Nat} {s : Bytes} (fits : i + (itemsText items).length ≤ limit)
    (ahead : Attribute.Ahead limit (i + (itemsText items).length) s) :
    Attribute.Ahead limit i (itemsText items ++ s) := by
  cases items with
  | nil => exact ahead
  | cons x rest =>
      obtain ⟨blanks, item⟩ := x
      have hx := valid _ List.mem_cons_self
      obtain ⟨c, t, text, first⟩ := hx.item.head
      have text : item.text = c :: t := text
      refine ⟨blanks, item.text ++ (itemsText rest ++ s), ?_, hx.blank, ?_,
        .inr ⟨c, t ++ (itemsText rest ++ s), ?_, ?_, ?_⟩⟩
      · simp only [itemsText, List.append_assoc]
      · simp only [itemsText, List.length_append] at fits
        omega
      · rw [text, List.cons_append]
      · rcases first with rfl | name
        · decide
        · simp_all [isItemNameByte, Attribute.isAttributeNameByte]
      · rintro rfl
        revert first
        decide

/-- A part does not go on with what stands behind it. -/
theorem head?_items {edge : Edge} (separate : Separate edge items) {s : Bytes}
    (behind : ∀ c, s.head? = some c → (edge.behind items).goesOn c = false) {c : UInt8}
    (hc : (itemsText items ++ s).head? = some c) : edge.goesOn c = false := by
  cases items with
  | nil => exact behind c hc
  | cons x rest => exact separate.head (valid _ List.mem_cons_self).item hc

/-- Items are found one by one, up to what they do not go on with. -/
theorem scan_in_front {edge : Edge} (separate : Separate edge items) {limit i : Nat} {s : Bytes}
    (fits : i + (itemsText items).length ≤ limit)
    (apart : limit = i + (itemsText items).length ∨
      ∀ c, s.head? = some c → (edge.behind items).goesOn c = false)
    (ahead : Attribute.Ahead limit (i + (itemsText items).length) s) :
    Attribute.scan limit i (itemsText items ++ s) =
      itemAttributes i items ++ Attribute.scan limit (i + (itemsText items).length) s := by
  induction items generalizing i edge with
  | nil => rfl
  | cons x rest ih =>
      obtain ⟨blanks, item⟩ := x
      obtain ⟨⟨hblanks, loose⟩, later⟩ := List.forall_mem_cons.1 valid
      have hblanks : AllBlank blanks := hblanks
      have loose : item.Loose := loose
      have width : i + (itemsText ((blanks, item) :: rest)).length =
          i + blanks.length + item.text.length + (itemsText rest).length := by
        simp only [itemsText, List.length_append]
        omega
      rw [width] at fits apart ahead
      have apart' : limit = i + blanks.length + item.text.length ∨
          ∀ c, (itemsText rest ++ s).head? = some c → item.edge.goesOn c = false := by
        cases rest with
        | nil => exact apart
        | cons y rest =>
            exact .inr fun c hc => separate.2.head (later _ List.mem_cons_self).item hc
      rw [width, itemsText, List.append_assoc, List.append_assoc,
        Attribute.scan_blanks hblanks _ (by omega),
        Attribute.scan_loose loose (by omega) apart' (ahead_items later fits ahead),
        ih later separate.2 fits apart ahead, itemAttributes, List.append_assoc]

theorem scan_separate {edge : Edge} (separate : Separate edge items) {gap : Bytes}
    (hg : AllBlank gap) (i : Nat) (s : Bytes) :
    Attribute.scan (i + (itemsText items ++ gap).length) i (itemsText items ++ (gap ++ s)) =
      itemAttributes i items := by
  have limit : i + (itemsText items ++ gap).length = i + (itemsText items).length + gap.length := by
    rw [List.length_append, Nat.add_assoc]
  have apart : i + (itemsText items).length + gap.length = i + (itemsText items).length ∨
      ∀ c, (gap ++ s).head? = some c → (edge.behind items).goesOn c = false := by
    cases gap with
    | nil => exact .inl rfl
    | cons d gap =>
        right
        rintro c ⟨⟩
        exact Edge.goesOn_blank _ (hg d List.mem_cons_self)
  rw [limit, scan_in_front valid separate (by omega) apart
    ⟨gap, s, rfl, hg, Nat.le_refl _, .inl rfl⟩, Attribute.scan_blanks hg s (Nat.le_refl _),
    Attribute.scan_limit, List.append_nil]

end

structure LooseTag where
  name : Bytes
  items : List SpacedItem
  gap : Bytes
  slashed : Bool
  isName : IsTagName name
  valid : ∀ x ∈ items, SpacedItem.Loose x
  blank : AllBlank gap

namespace LooseTag

def attributes (tag : LooseTag) : Bytes := itemsText tag.items ++ tag.gap

def text (tag : LooseTag) : Bytes := openTagText tag.name tag.attributes tag.slashed

/-- What the tag is read as where it stands at offset `i`. -/
def reading (tag : LooseTag) (i : Nat) : OpenTag :=
  ⟨i, tag.name, i + 1 + tag.name.length + tag.attributes.length, tag.slashed⟩

/-- The parts of the tag are kept apart, and no slash of a value ends it. -/
structure Stands (tag : LooseTag) : Prop where
  separate : Separate .name tag.items
  unslashed : tag.slashed = false → tag.attributes.getLast? ≠ some Byte.slash

instance (tag : LooseTag) : Decidable tag.Stands :=
  decidable_of_iff (Separate .name tag.items ∧
      (tag.slashed = false → tag.attributes.getLast? ≠ some Byte.slash))
    ⟨fun h => ⟨h.1, h.2⟩, fun h => ⟨h.separate, h.unslashed⟩⟩

theorem attributes_markup (tag : LooseTag) : Markup .attributes tag.attributes :=
  itemsText_markup tag.valid (markup_blank tag.blank)

variable {tag : LooseTag} (stands : tag.Stands)

include stands

theorem Stands.bounded : Bounded tag.attributes tag.slashed where
  apart _ hc := head?_items tag.valid stands.separate
    (fun c hc => Edge.goesOn_blank _ (tag.blank c (List.mem_of_head? hc))) hc
  unslashed := stands.unslashed

theorem Stands.attributesIn_text (i : Nat) (s : Bytes) :
    (tag.reading i).attributesIn (tag.text ++ s) =
      itemAttributes (i + 1 + tag.name.length) tag.items := by
  have behindName : tag.text ++ s = Byte.less :: (tag.name ++ (itemsText tag.items ++
      (tag.gap ++ (tagEnding tag.slashed ++ s)))) := by
    simp only [text, Scan.openTagText_append, attributes, List.append_assoc]
  have nameEnd : (tag.reading i).nameEnd - (tag.reading i).start = tag.name.length + 1 := by
    simp only [OpenTag.nameEnd, reading]
    omega
  rw [OpenTag.attributesIn, nameEnd, behindName, List.drop_succ_cons, List.drop_left]
  exact scan_separate tag.valid stands.separate tag.blank _ _

end LooseTag

namespace TagText

/-- White space in front of each item keeps the items apart. -/
theorem separate_of_valid {edge : Edge} {items : List SpacedItem}
    (valid : ∀ x ∈ items, SpacedItem.Valid x) : Separate edge items := by
  induction items generalizing edge with
  | nil => trivial
  | cons x rest ih =>
      obtain ⟨gap, item⟩ := x
      obtain ⟨⟨apart, blank, -⟩, later⟩ := List.forall_mem_cons.1 valid
      obtain ⟨c, t, rfl⟩ := List.exists_cons_of_ne_nil apart
      exact ⟨edge.goesOn_blank (blank c List.mem_cons_self), ih later⟩

def loose (tag : TagText) : LooseTag where
  name := tag.name
  items := tag.items
  gap := tag.gap
  slashed := tag.slashed
  isName := tag.isName
  valid := fun x mem => (tag.valid x mem).loose
  blank := tag.blank

theorem stands_loose (tag : TagText) : tag.loose.Stands :=
  ⟨separate_of_valid tag.valid, tag.attributes_bounded.unslashed⟩

theorem attributesIn_text (tag : TagText) (i : Nat) (s : Bytes) :
    (tag.reading i).attributesIn (tag.text ++ s) = tag.written i :=
  tag.stands_loose.attributesIn_text i s

end TagText

end MarkupEdit
