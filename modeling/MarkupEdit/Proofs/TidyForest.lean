import MarkupEdit.Proofs.NestedForest
import MarkupEdit.Proofs.TagSlots

/-!
Tidy documents, in which nothing but a tag looks like one, and which elements stand side by side
in them. The children of each element, and the elements that stand in no other one, are a level of
the document; what stands around a level is the end of the opening tag that holds it and the
closing tag, or nothing.
-/

namespace MarkupEdit

/-- The marks that tags and blocks begin and end with. -/
def isMark (c : UInt8) : Bool :=
  c == Byte.less || c == Byte.greater || c == Byte.openBrace || c == Byte.closeBrace

def Unmarked (b : Bytes) : Prop := ∀ c ∈ b, isMark c = false

instance (b : Bytes) : Decidable (Unmarked b) :=
  decidable_of_iff (b.all (!isMark ·) = true) (by simp [Unmarked])

theorem Unmarked.nil : Unmarked [] := nofun

theorem Unmarked.append {b c : Bytes} (hb : Unmarked b) (hc : Unmarked c) : Unmarked (b ++ c) :=
  List.forall_mem_append.2 ⟨hb, hc⟩

theorem Unmarked.cons {c : UInt8} {b : Bytes} (hc : isMark c = false) (hb : Unmarked b) :
    Unmarked (c :: b) :=
  List.forall_mem_cons.2 ⟨hc, hb⟩

theorem unmarked_of_allBlank {gap : Bytes} (h : AllBlank gap) : Unmarked gap := by
  intro c hc
  have blank := h c hc
  simp only [Byte.isBlank, Bool.or_eq_true, beq_iff_eq] at blank
  rcases blank with (((rfl | rfl) | rfl) | rfl) | rfl <;> decide

theorem unmarked_of_isTagName {name : Bytes} (h : IsTagName name) : Unmarked name := by
  intro c hc
  have byte := h.all c hc
  simp only [isMark, Bool.or_eq_false_iff, beq_eq_false_iff_ne]
  refine ⟨⟨⟨?_, ?_⟩, ?_⟩, ?_⟩ <;> (rintro rfl; exact absurd byte (by decide))

/-- A text from `<` to `>` with no other mark in it, the `>` of which ends no comment. -/
def Angled (b : Bytes) : Prop :=
  ∃ body, b = Byte.less :: (body ++ [Byte.greater]) ∧ Unmarked body ∧
    ¬ utf8 "--" <:+ Byte.less :: body

/-- Every attribute of the tag is written between double quotes, with no marks in it. The name of
the tag does not end like a comment. -/
structure TagText.Tidy (tag : TagText) : Prop where
  name : ¬ utf8 "--" <:+ tag.name
  quoted : ∀ x ∈ tag.items, ∃ name value, x.2 = .quoted Byte.doubleQuote name value ∧
    Unmarked name ∧ Unmarked value ∧ Byte.doubleQuote ∉ value

/-- What does not end in a hyphen does not end like a comment. -/
theorem not_suffix_of_getLast? {b : Bytes} (h : b.getLast? ≠ some Byte.hyphen) :
    ¬ utf8 "--" <:+ b := by
  rintro ⟨u, rfl⟩
  rw [List.getLast?_append] at h
  exact h rfl

/-- Whether a text ends like a comment does not depend on what stands in front of it. -/
theorem not_suffix_append {b : Bytes} (ne : b ≠ []) (first : b.head? ≠ some Byte.hyphen)
    (h : ¬ utf8 "--" <:+ b) (front : Bytes) : ¬ utf8 "--" <:+ front ++ b := by
  obtain ⟨c, t, rfl⟩ := List.exists_cons_of_ne_nil ne
  intro suffix
  cases t with
  | nil =>
      obtain ⟨u, same⟩ := suffix
      have last : (front ++ [c]).getLast? = some Byte.hyphen := by
        rw [← same, List.getLast?_append]
        rfl
      rw [List.getLast?_concat] at last
      exact first last
  | cons d t =>
      apply h
      apply List.suffix_of_suffix_length_le suffix (List.suffix_append front _)
      change 2 ≤ t.length + 1 + 1
      omega

theorem not_suffix_tagName {name : Bytes} (hn : IsTagName name) (h : ¬ utf8 "--" <:+ name)
    (front : Bytes) : ¬ utf8 "--" <:+ front ++ name := by
  have first := Scan.head?_tagName hn [] (m := Byte.hyphen) (by decide)
  rw [List.append_nil] at first
  refine not_suffix_append ?_ first h front
  rintro rfl
  exact hn.elim

theorem unmarked_itemsText {items : List SpacedItem} (valid : ∀ x ∈ items, SpacedItem.Valid x)
    (quoted : ∀ x ∈ items, ∃ name value, x.2 = .quoted Byte.doubleQuote name value ∧
      Unmarked name ∧ Unmarked value ∧ Byte.doubleQuote ∉ value) :
    Unmarked (itemsText items) := by
  induction items with
  | nil => exact .nil
  | cons x rest ih =>
      obtain ⟨gap, item⟩ := x
      obtain ⟨name, value, rfl, hname, hvalue, -⟩ := quoted _ List.mem_cons_self
      have blank := unmarked_of_allBlank (valid _ List.mem_cons_self).blank
      have tail := ih (fun y hy => valid y (List.mem_cons_of_mem _ hy))
        fun y hy => quoted y (List.mem_cons_of_mem _ hy)
      have written : (Item.quoted Byte.doubleQuote name value).text =
          name ++ Byte.equals :: Byte.doubleQuote :: (value ++ [Byte.doubleQuote]) := rfl
      rw [itemsText, written]
      refine blank.append (.append (hname.append ?_) tail)
      exact .cons (by decide) (.cons (by decide) (hvalue.append (by decide)))

/-- Items between double quotes end in a quote, if there are any. -/
theorem getLast?_quotedItems {items : List SpacedItem} (ne : items ≠ [])
    (quoted : ∀ x ∈ items, ∃ name value, x.2 = .quoted Byte.doubleQuote name value ∧
      Unmarked name ∧ Unmarked value ∧ Byte.doubleQuote ∉ value) :
    (itemsText items).getLast? = some Byte.doubleQuote := by
  obtain ⟨front, ⟨gap, item⟩, rfl⟩ : ∃ front x, items = front ++ [x] :=
    ⟨_, _, (List.dropLast_concat_getLast ne).symm⟩
  obtain ⟨name, value, rfl, -⟩ := quoted _ (List.mem_append_right _ List.mem_cons_self)
  have last : itemsText (front ++ [(gap, Item.quoted Byte.doubleQuote name value)]) =
      (itemsText front ++ (gap ++ (name ++ Byte.equals :: Byte.doubleQuote :: value))) ++
        [Byte.doubleQuote] := by
    simp [itemsText_append, itemsText, Item.quoted, Item.text]
  rw [last, List.getLast?_concat]

theorem getLast?_blank {gap : Bytes} (ne : gap ≠ []) (h : AllBlank gap) (front : Bytes) :
    (front ++ gap).getLast? ≠ some Byte.hyphen :=
  getLast?_append_ne_nil (fun last => absurd (h _ (List.mem_of_getLast? last)) (by decide)) ne _

/-- The id of a marker runs up to the quote behind it. -/
theorem MarkerPlace.head?_idsBetween {tag : TagText} {id : Bytes} (place : MarkerPlace tag id)
    (noQuote : Byte.doubleQuote ∉ id) (s : Bytes) :
    (Marker.idsBetween (tag.text ++ s) (place.offset 0)
      (place.offset 0 + (Marker.ofId id).length)).head? = some id := by
  have split : tag.text ++ s =
      (Byte.less :: place.lead) ++ (Marker.ofId id ++ (place.trail ++ s)) :=
    place.text_split [] s
  have front : (Byte.less :: place.lead).length = place.offset 0 := place.length_front []
  have fresh : Marker.isFresh (tag.text ++ s) (place.offset 0 + 0) = true :=
    place.isFresh_offset [] s
  obtain ⟨rest, occurrences⟩ :
      ∃ rest, (Marker.ofId id).occurrences Marker.opening = 0 :: rest := by
    have here : Marker.opening.isPrefixOf (Marker.ofId id) = true := by
      rw [List.isPrefixOf_iff_prefix, Marker.ofId, List.append_assoc]
      exact List.prefix_append _ _
    cases text : Marker.ofId id with
    | nil => exact absurd text (ofId_ne_nil id)
    | cons c t =>
        rw [text] at here
        rw [Bytes.occurrences, Bytes.occurrencesFrom, if_pos here]
        exact ⟨_, rfl⟩
  have behind : (tag.text ++ s).drop (place.offset 0 + Marker.opening.length) =
      id ++ Byte.doubleQuote :: (place.trail ++ s) := by
    rw [← front, split, ← List.drop_drop, List.drop_left, Marker.ofId, List.append_assoc,
      List.append_assoc, List.drop_left, List.singleton_append]
  have read : Marker.idAt? (tag.text ++ s) (place.offset 0) = some id := by
    rw [Marker.idAt?, behind]
    simp only [Bytes.idxOf?_append_cons noQuote, Option.map_some, List.take_left]
  have window : (tag.text ++ s).slice (place.offset 0)
      (place.offset 0 + (Marker.ofId id).length) = Marker.ofId id := by
    rw [← front, split, slice_append]
  rw [Marker.idsBetween, window, occurrences, List.filterMap_cons, if_pos fresh, Nat.add_zero, read]
  rfl

namespace TagText

theorem Tidy.angled {tag : TagText} (tidy : tag.Tidy) : Angled tag.text := by
  have items := unmarked_itemsText tag.valid tidy.quoted
  have body : Unmarked (tag.name ++ tag.attributes) :=
    (unmarked_of_isTagName tag.isName).append (items.append (unmarked_of_allBlank tag.blank))
  cases slash : tag.slashed with
  | true =>
      refine ⟨tag.name ++ tag.attributes ++ [Byte.slash], ?_, body.append (by decide), ?_⟩
      · simp [text, openTagText, tagEnding, slash]
      · apply not_suffix_of_getLast?
        rw [← List.cons_append, List.getLast?_concat]
        decide
  | false =>
      refine ⟨tag.name ++ tag.attributes, ?_, body, ?_⟩
      · simp [text, openTagText, tagEnding, slash]
      · -- The last byte is a blank or a quote, or the name ends there.
        by_cases noGap : tag.gap = []
        · by_cases noItems : tag.items = []
          · rw [attributes, noGap, noItems, itemsText, List.append_nil, List.append_nil]
            exact not_suffix_tagName tag.isName tidy.name [Byte.less]
          · apply not_suffix_of_getLast?
            rw [attributes, noGap, List.append_nil, ← List.cons_append, List.getLast?_append,
              getLast?_quotedItems noItems tidy.quoted, Option.some_or]
            decide
        · apply not_suffix_of_getLast?
          rw [attributes, ← List.append_assoc, ← List.cons_append]
          exact getLast?_blank noGap tag.blank _

theorem Tidy.angled_close {tag : TagText} (tidy : tag.Tidy) {gap : Bytes} (blank : AllBlank gap) :
    Angled (closeTagText tag.name gap) := by
  refine ⟨Byte.slash :: (tag.name ++ gap), ?_, ?_, ?_⟩
  · simp [closeTagText]
  · exact .cons (by decide)
      ((unmarked_of_isTagName tag.isName).append (unmarked_of_allBlank blank))
  · by_cases noGap : gap = []
    · rw [noGap, List.append_nil]
      exact not_suffix_tagName tag.isName tidy.name [Byte.less, Byte.slash]
    · apply not_suffix_of_getLast?
      rw [← List.cons_append, ← List.cons_append]
      exact getLast?_blank noGap blank _

/-- What stands between the quotes of the first marker of a tag. -/
def id? (tag : TagText) : Option Bytes :=
  (tag.items.find? (·.2.name? = some Marker.attributeName)).bind fun x =>
    x.2.raw?.map fun raw => raw.tail.dropLast

theorem Tidy.id?_cases {tag : TagText} (tidy : tag.Tidy) :
    tag.id? = none ∧ lookup? tag.items Marker.attributeName = none ∨
      ∃ id, tag.id? = some id ∧ Byte.doubleQuote ∉ id ∧
        ∃ place : MarkerPlace tag id, lookup? place.earlier Marker.attributeName = none := by
  cases found : tag.items.find? (·.2.name? = some Marker.attributeName) with
  | none =>
      left
      rw [id?, lookup?, found]
      exact ⟨rfl, rfl⟩
  | some x =>
      right
      obtain ⟨named, earlier, later, split, before⟩ := List.find?_eq_some_iff_append.1 found
      obtain ⟨gap, item⟩ := x
      obtain ⟨name, value, rfl, -, -, noQuote⟩ := tidy.quoted (gap, item) (by simp [split])
      obtain rfl : name = Marker.attributeName := by simpa [Item.quoted, Item.name?] using named
      refine ⟨value, ?_, noQuote, ⟨earlier, gap, later, split⟩, ?_⟩
      · rw [id?, found]
        simp [Item.quoted, Item.raw?]
      · exact lookup?_eq_none.2 fun y hy => by simpa using before y hy

/-- The id that is read from a tag is the one of its first marker. -/
theorem Tidy.idIn?_eq {tag : TagText} (tidy : tag.Tidy) (i : Nat) (s : Bytes) :
    Marker.idIn? (tag.text ++ s) (tag.reading i) = tag.id? := by
  rw [Marker.idIn?, attributesIn_text, written]
  rcases tidy.id?_cases with ⟨none, absent⟩ | ⟨id, some, noQuote, place, first⟩
  · rw [find?_eq_none_of_lookup? absent, none]
  · have found : (itemAttributes (i + 1 + tag.name.length) tag.items).find?
        (·.name = Marker.attributeName) =
          (markerItem id).attribute? (i + 1 + tag.name.length +
            (itemsText place.earlier).length + place.gap.length) := by
      rw [place.split]
      exact find?_first first rfl place.later _
    obtain ⟨a, isItem⟩ : ∃ a, (markerItem id).attribute? (i + 1 + tag.name.length +
      (itemsText place.earlier).length + place.gap.length) = Option.some a := ⟨_, rfl⟩
    have start : a.start - i = place.offset 0 := by
      rw [start_attribute? isItem, MarkerPlace.offset, MarkerPlace.lead, List.length_append,
        List.length_append]
      omega
    have stop : a.stop - i = place.offset 0 + (Marker.ofId id).length := by
      rw [stop_attribute? isItem, text_markerItem, MarkerPlace.offset, MarkerPlace.lead,
        List.length_append, List.length_append]
      omega
    rw [isItem] at found
    have here : (tag.reading i).start = i := rfl
    simp only [found, here, start, stop, place.head?_idsBetween noQuote, some]

end TagText

def ElementText.ofTag (tag : TagText) : ElementText := ⟨tag, [], [], .contentNil, .nil⟩

theorem ElementText.text_ofTag {tag : TagText} (alone : tag.closesItself = true) :
    (ElementText.ofTag tag).text = tag.text := by
  rw [text, tail, ofTag, if_pos alone, List.append_nil]

def ElementText.ofForest (tag : TagText) (inner : Forest) (gap : Bytes)
    (isContent : Markup .content inner.bytes) (blank : AllBlank gap) : ElementText :=
  ⟨tag, inner.bytes, gap, isContent, blank⟩

theorem ElementText.text_ofForest {tag : TagText} (opens : tag.closesItself = false)
    {inner : Forest} {gap : Bytes} (isContent : Markup .content inner.bytes)
    (blank : AllBlank gap) :
    (ElementText.ofForest tag inner gap isContent blank).text =
      Forest.pairedText tag inner gap := by
  rw [text, tail, ofForest, if_neg (by simp [opens])]
  rfl

namespace Forest

/-- Nothing but a tag looks like one, also to a reader who comes from behind. -/
def Tidy : Forest → Prop
  | nil => True
  | text body _ rest => Unmarked body ∧ rest.Tidy
  | comment body _ rest => ¬ utf8 "<!--" <:+: body ++ utf8 "--" ∧ rest.Tidy
  | single tag _ rest => tag.Tidy ∧ rest.Tidy
  | paired tag _ inner _ _ rest => tag.Tidy ∧ inner.Tidy ∧ rest.Tidy

/-- The opening tags of the elements that stand in no other element of the forest, with their
offsets, the forest standing at offset `i`. -/
def roots (i : Nat) : Forest → List (Nat × TagText)
  | nil => []
  | text body _ rest => rest.roots (i + body.length)
  | comment body _ rest => rest.roots (i + (commentText body).length)
  | single tag _ rest => (i, tag) :: rest.roots (i + tag.text.length)
  | paired tag _ inner gap _ rest =>
      (i, tag) :: rest.roots (i + (pairedText tag inner gap).length)

def contents (i : Nat) : Forest → List (Nat × Forest)
  | nil => []
  | text body _ rest => rest.contents (i + body.length)
  | comment body _ rest => rest.contents (i + (commentText body).length)
  | single tag _ rest => rest.contents (i + tag.text.length)
  | paired tag _ inner gap _ rest =>
      (i + tag.text.length, inner) ::
        (inner.contents (i + tag.text.length) ++
          rest.contents (i + (pairedText tag inner gap).length))

def levels (doc : Forest) : List (Nat × Forest) := (0, doc) :: doc.contents 0

/-- The element at `x` has the same parent as those at `earlier`, which stand before it, and those
at `later`, which stand behind it, and no other element has. -/
def Beside (doc : Forest) (earlier : List (Nat × TagText)) (x : Nat × TagText)
    (later : List (Nat × TagText)) : Prop :=
  ∃ i level, (i, level) ∈ doc.levels ∧ level.roots i = earlier ++ x :: later

/-- Every opening tag of a forest is one of its roots, or a root of the content of some element. -/
theorem root_of_placed {doc : Forest} {i k : Nat} {tag : TagText}
    (h : (k, .opening tag) ∈ Piece.placed i doc.pieces) :
    (k, tag) ∈ doc.roots i ∨ ∃ j level, (j, level) ∈ doc.contents i ∧ (k, tag) ∈ level.roots j := by
  induction doc generalizing i with
  | nil => cases h
  | text body plain rest ih =>
      rcases List.mem_cons.1 h with same | h
      · cases same
      · exact ih h
  | comment body unclosed rest ih =>
      rcases List.mem_cons.1 h with same | h
      · cases same
      · exact ih h
  | single tag' alone rest ih =>
      rcases List.mem_cons.1 h with same | h
      · cases same
        exact .inl List.mem_cons_self
      · exact (ih h).imp_left (List.mem_cons_of_mem _)
  | paired tag' opens inner gap blank rest ihinner ih =>
      rw [pieces_paired, Piece.placed_append, join_pairedPieces, pairedPieces, Piece.placed,
        Piece.placed_append] at h
      rcases List.mem_append.1 h with h | h
      · rcases List.mem_cons.1 h with same | h
        · cases same
          exact .inl List.mem_cons_self
        · rcases List.mem_append.1 h with h | h
          · right
            rcases ihinner h with root | ⟨j, level, mem, root⟩
            · exact ⟨_, inner, List.mem_cons_self, root⟩
            · exact ⟨j, level, List.mem_cons_of_mem _ (List.mem_append_left _ mem), root⟩
          · cases List.mem_singleton.1 h
      · rcases ih h with root | ⟨j, level, mem, root⟩
        · exact .inl (List.mem_cons_of_mem _ root)
        · exact .inr ⟨j, level, List.mem_cons_of_mem _ (List.mem_append_right _ mem), root⟩

/-- Every element has its place among its siblings. -/
theorem Stands.beside {doc : Forest} {k : Nat} {tag : TagText}
    (stands : doc.Stands k (.opening tag)) :
    ∃ earlier later, doc.Beside earlier (k, tag) later := by
  obtain ⟨i, level, mem, root⟩ : ∃ i level, (i, level) ∈ doc.levels ∧ (k, tag) ∈ level.roots i := by
    rcases root_of_placed stands with root | ⟨j, level, mem, root⟩
    · exact ⟨0, doc, List.mem_cons_self, root⟩
    · exact ⟨j, level, List.mem_cons_of_mem _ mem, root⟩
  obtain ⟨earlier, later, split⟩ := List.append_of_mem root
  exact ⟨earlier, later, i, level, mem, split⟩

/-- The text is empty, or ends in the opening tag of an element with content. -/
def Opens (p : Bytes) : Prop :=
  p = [] ∨ ∃ u tag, p = u ++ tag.text ∧ TagText.Tidy tag ∧ tag.closesItself = false

/-- The text is empty, or begins with a closing tag. -/
def Closes (s : Bytes) : Prop :=
  s = [] ∨ ∃ name gap v, s = closeTagText name gap ++ v ∧ IsTagName name ∧ AllBlank gap

/-- A level stands in a text between the tags that hold it. -/
structure Between (text : Bytes) (i : Nat) (level : Forest) (p s : Bytes) : Prop where
  split : text = p ++ (level.bytes ++ s)
  offset : i = p.length
  tidy : level.Tidy
  opens : Opens p
  closes : Closes s

theorem Tidy.content {doc : Forest} (tidy : doc.Tidy) {i k : Nat} {level : Forest}
    (mem : (k, level) ∈ doc.contents i) {p : Bytes} (width : i = p.length) (s : Bytes) :
    ∃ p' s', Between (p ++ (doc.bytes ++ s)) k level p' s' := by
  induction doc generalizing i p s with
  | nil => cases mem
  | text body plain rest ih =>
      obtain ⟨-, later⟩ := tidy
      rw [bytes_text, List.append_assoc, ← List.append_assoc p]
      exact ih later mem (by rw [List.length_append, width]) s
  | comment body unclosed rest ih =>
      obtain ⟨-, later⟩ := tidy
      rw [bytes_comment, List.append_assoc, ← List.append_assoc p]
      exact ih later mem (by rw [List.length_append, width]) s
  | single tag alone rest ih =>
      obtain ⟨-, later⟩ := tidy
      rw [bytes_single, List.append_assoc, ← List.append_assoc p]
      exact ih later mem (by rw [List.length_append, width]) s
  | paired tag opens inner gap blank rest ihinner ih =>
      obtain ⟨hers, inside, later⟩ := tidy
      have nested : p ++ ((paired tag opens inner gap blank rest).bytes ++ s) =
          (p ++ tag.text) ++ (inner.bytes ++ (closeTagText tag.name gap ++ (rest.bytes ++ s))) := by
        simp only [bytes_paired, pairedText, List.append_assoc]
      rcases List.mem_cons.1 mem with same | mem
      · cases same
        exact ⟨_, _, nested, by rw [List.length_append, width], inside,
          .inr ⟨p, tag, rfl, hers, opens⟩, .inr ⟨tag.name, gap, _, rfl, tag.isName, blank⟩⟩
      · rcases List.mem_append.1 mem with mem | mem
        · rw [nested]
          exact ihinner inside mem (by rw [List.length_append, width]) _
        · rw [bytes_paired, List.append_assoc, ← List.append_assoc p]
          exact ih later mem (by rw [List.length_append, width]) s

theorem Tidy.level {doc : Forest} (tidy : doc.Tidy) {i : Nat} {level : Forest}
    (mem : (i, level) ∈ doc.levels) : ∃ p s, Between doc.bytes i level p s := by
  rcases List.mem_cons.1 mem with same | mem
  · cases same
    exact ⟨[], [], by simp, rfl, tidy, .inl rfl, .inl rfl⟩
  · simpa using tidy.content mem (p := []) rfl []

theorem code_of_unmarked {body : Bytes} (h : Unmarked body) : Code 0 body 0 := by
  induction body with
  | nil => exact .nil 0
  | cons c t ih =>
      obtain ⟨first, later⟩ := List.forall_mem_cons.1 h
      refine .byte ?_ (ih later)
      simp only [isMark, Bool.or_eq_false_iff] at first
      simp [Part.isPlain, first.1.1.1, first.1.2]

theorem Tidy.nested {doc : Forest} (tidy : doc.Tidy) : Nested 0 doc 0 := by
  induction doc with
  | nil => exact .nil 0
  | text body plain rest ih => exact .text (code_of_unmarked tidy.1) (ih tidy.2)
  | comment body unclosed rest ih => exact .comment (ih tidy.2)
  | single tag alone rest ih => exact .single (ih tidy.2)
  | paired tag opens inner gap blank rest ihinner ih =>
      exact .paired (ihinner tidy.2.1) (ih tidy.2.2)

/-- The element of a root stands between two tidy forests. -/
theorem Tidy.root {level : Forest} (tidy : level.Tidy) {i k : Nat} {tag : TagText}
    (mem : (k, tag) ∈ level.roots i) :
    ∃ (front back : Forest) (e : ElementText), level.bytes = front.bytes ++ (e.text ++ back.bytes) ∧
      k = i + front.bytes.length ∧ front.Tidy ∧ back.Tidy ∧ e.tag = tag ∧ tag.Tidy := by
  induction level generalizing i with
  | nil => cases mem
  | text body plain rest ih =>
      obtain ⟨hers, later⟩ := tidy
      obtain ⟨front, back, e, split, width, hfront, rest⟩ := ih later mem
      refine ⟨.text body plain front, back, e, ?_, ?_, ⟨hers, hfront⟩, rest⟩
      · rw [bytes_text, bytes_text, split, List.append_assoc]
      · rw [bytes_text, List.length_append, width, Nat.add_assoc]
  | comment body unclosed rest ih =>
      obtain ⟨hers, later⟩ := tidy
      obtain ⟨front, back, e, split, width, hfront, rest⟩ := ih later mem
      refine ⟨.comment body unclosed front, back, e, ?_, ?_, ⟨hers, hfront⟩, rest⟩
      · rw [bytes_comment, bytes_comment, split, List.append_assoc]
      · rw [bytes_comment, List.length_append, width, Nat.add_assoc]
  | single tag' alone rest ih =>
      obtain ⟨hers, later⟩ := tidy
      rcases List.mem_cons.1 mem with same | mem
      · cases same
        refine ⟨.nil, rest, .ofTag tag, ?_, rfl, trivial, later, rfl, hers⟩
        rw [bytes_single, ElementText.text_ofTag alone]
        rfl
      · obtain ⟨front, back, e, split, width, hfront, rest⟩ := ih later mem
        refine ⟨.single tag' alone front, back, e, ?_, ?_, ⟨hers, hfront⟩, rest⟩
        · rw [bytes_single, bytes_single, split, List.append_assoc]
        · rw [bytes_single, List.length_append, width, Nat.add_assoc]
  | paired tag' opens inner gap blank rest ihinner ih =>
      obtain ⟨hers, inside, later⟩ := tidy
      rcases List.mem_cons.1 mem with same | mem
      · cases same
        refine ⟨.nil, rest, .ofForest tag inner gap inside.nested.content blank, ?_, rfl, trivial,
          later, rfl, hers⟩
        rw [bytes_paired, ElementText.text_ofForest opens]
        rfl
      · obtain ⟨front, back, e, split, width, hfront, rest⟩ := ih later mem
        refine ⟨.paired tag' opens inner gap blank front, back, e, ?_, ?_,
          ⟨hers, inside, hfront⟩, rest⟩
        · rw [bytes_paired, bytes_paired, split, List.append_assoc]
        · rw [bytes_paired, List.length_append, width, Nat.add_assoc]

end Forest

end MarkupEdit
