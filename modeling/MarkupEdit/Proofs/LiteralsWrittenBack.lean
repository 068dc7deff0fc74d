import MarkupEdit.Proofs.LiteralTexts

/-!
Writing back a literal that was read. The edit is always accepted and writes nothing but the value.
For a tag whose parts are kept apart the text is read again exactly if the encoding keeps it; then
further rounds change nothing. In braces a backslash is escaped anew in each round.
-/

namespace MarkupEdit

namespace LooseTag

variable {tag : LooseTag} {earlier later : List SpacedItem} {gap name before after old : Bytes}
  (split : tag.items = earlier ++ (gap, .valued name before after old) :: later)
  {value : Bytes} (literal : Markup .literal value)

/-- The tag with a literal in place of the value of an item. -/
def revalue : LooseTag where
  name := tag.name
  items := earlier ++ (gap, .valued name before after value) :: later
  gap := tag.gap
  slashed := tag.slashed
  isName := tag.isName
  valid := fun x mem => by
    have loose := split ▸ tag.valid
    rcases List.mem_append.1 mem with mem | mem
    · exact loose x (List.mem_append_left _ mem)
    · rcases List.mem_cons.1 mem with rfl | mem
      · obtain ⟨blank, isName, hbefore, hafter, -⟩ :=
          loose (gap, .valued name before after old) (by simp)
        exact ⟨blank, isName, hbefore, hafter, .inl literal⟩
      · exact loose x (List.mem_append_right _ (List.mem_cons_of_mem _ mem))
  blank := tag.blank

/-- A literal does not go on with what stands behind it. -/
theorem separate_closed {edge : Edge} {items : List SpacedItem} (separate : Separate edge items) :
    Separate .closed items := by
  cases items with
  | nil => trivial
  | cons x rest =>
      refine ⟨?_, separate.2⟩
      cases (x.1 ++ x.2.text).head? with
      | none => rfl
      | some c => rfl

theorem stands_revalue (stands : tag.Stands) : (revalue split literal).Stands := by
  obtain ⟨front, junction, behind⟩ := separate_append.1 (split ▸ stands.separate)
  have edge : (Item.valued name before after value).edge = .closed := by
    rw [Item.edge, opensValue_of_literal literal]
    rfl
  obtain ⟨c, t, isName⟩ : ∃ c t, name = c :: t := by
    obtain ⟨-, isName, -⟩ := tag.valid (gap, .valued name before after old) (by simp [split])
    exact List.exists_cons_of_ne_nil isName.1
  have head : (gap ++ (Item.valued name before after value).text).head? =
      (gap ++ (Item.valued name before after old).text).head? := by
    rw [isName]
    cases gap <;> rfl
  refine ⟨separate_append.2 ⟨front, ?_, ?_⟩, fun open' => ?_⟩
  · rw [head]
    exact junction
  · rw [edge]
    exact separate_closed behind
  · have text {v : Bytes} : itemsText (earlier ++ (gap, .valued name before after v) :: later) ++
        tag.gap = (itemsText earlier ++ (gap ++ (name ++ (before ++ Byte.equals :: after)))) ++
          (v ++ (itemsText later ++ tag.gap)) := by
      simp [itemsText_append, itemsText, Item.text]
    have last : (itemsText tag.items ++ tag.gap).getLast? ≠ some Byte.slash :=
      stands.unslashed open'
    change (itemsText (earlier ++ (gap, .valued name before after value) :: later) ++
      tag.gap).getLast? ≠ _
    rw [split, text] at last
    rw [text]
    by_cases none : itemsText later ++ tag.gap = []
    · obtain ⟨c, t, rfl, -⟩ := Scan.head_literal literal
      rw [none, List.append_nil]
      exact getLast?_append_ne_nil (getLast?_literal literal) (List.cons_ne_nil c t) _
    · rw [List.getLast?_append_of_ne_nil _ (by simp [none]),
        List.getLast?_append_of_ne_nil _ none] at last ⊢
      exact last

theorem apply_revalue {p s : Bytes} {a : Attribute}
    (found : (Item.valued name before after old).attribute? (p.length + 1 + tag.name.length +
      (itemsText earlier).length + gap.length) = some a) :
    (a.replaceValue value).apply (p ++ (tag.text ++ s)) =
      p ++ ((revalue split literal).text ++ s) := by
  cases found
  have whole : p ++ (tag.text ++ s) = ((p ++ Byte.less :: tag.name) ++ (itemsText earlier ++
      (gap ++ (name ++ (before ++ Byte.equals :: after))))) ++
        (old ++ (itemsText later ++ (tag.gap ++ (tagEnding tag.slashed ++ s)))) := by
    simp [text_around, split, itemsText_append, itemsText, Item.text]
  rw [whole, Patch.apply_between (w := old)]
  · simp [text_around, revalue, itemsText_append, itemsText, Item.text, Attribute.replaceValue]
  · simp only [Attribute.replaceValue, List.length_append, List.length_cons]
    omega
  · rfl

end LooseTag

theorem parse_of_classify {raw? : Option Bytes} {text : Bytes} {encoding : Encoding}
    (read : AttributeValue.classify raw? = .literal encoding text) :
    ∃ raw, raw? = some raw ∧ Encoding.parse raw = some (encoding, text) := by
  cases raw? with
  | none => cases read
  | some raw =>
      rw [AttributeValue.classify] at read
      split at read
      next => cases read
      next used content parsed =>
        cases read
        exact ⟨raw, rfl, parsed⟩

theorem Encoding.eq_of_parse_unquoted {raw text : Bytes}
    (parsed : parse raw = some (unquoted, text)) : raw = text := by
  have other {mark : UInt8} : quoted mark ≠ unquoted ∧ braced mark ≠ unquoted := by
    rw [quoted, braced]
    split
    · decide
    · split
      · decide
      · decide
  rw [parse.eq_def] at parsed
  split at parsed
  · cases parsed
  next c t =>
    split at parsed
    next =>
      obtain ⟨content, -, same⟩ := Option.map_eq_some_iff.1 parsed
      exact absurd (Prod.mk.inj same).1 (@other c).1
    next =>
      split at parsed
      next =>
        obtain ⟨inner, -, parsed⟩ := Option.bind_eq_some_iff.1 parsed
        obtain ⟨content, -, parsed⟩ := Option.bind_eq_some_iff.1 parsed
        obtain ⟨first, -, parsed⟩ := Option.bind_eq_some_iff.1 parsed
        exact absurd (Prod.mk.inj (Option.some.inj parsed)).1 (@other first).2
      next =>
        split at parsed
        next => cases parsed
        next =>
          cases parsed
          rfl

/-- A literal in the place of a value leaves a tag whose parts are kept apart. -/
theorem LooseTag.exists_revalued {tag : LooseTag} (stands : tag.Stands) {p s name old raw : Bytes}
    {a : Attribute}
    (present : (tag.reading p.length).attribute? (p ++ (tag.text ++ s)) name = some a)
    (written : a.raw = some old) (literal : Markup .literal raw) :
    ∃ (edited : LooseTag) (a' : Attribute), edited.Stands ∧
      (a.replaceValue raw).apply (p ++ (tag.text ++ s)) = p ++ (edited.text ++ s) ∧
      (edited.reading p.length).attribute? (p ++ (edited.text ++ s)) name = some a' ∧
      a'.raw = some raw := by
  rw [OpenTag.attribute?, stands.attributes_in] at present
  obtain ⟨earlier, gap, item, later, split, first, found⟩ := first_of_find? present
  cases item with
  | spread body => cases found
  | flag label =>
      cases found
      cases written
  | valued label before after value =>
      obtain rfl : label = name := by
        cases found
        simpa using List.find?_some present
      have stands' := LooseTag.stands_revalue split literal stands
      have present' : ((LooseTag.revalue split literal).reading p.length).attribute?
          (p ++ ((LooseTag.revalue split literal).text ++ s)) label =
            (Item.valued label before after raw).attribute?
              (p.length + 1 + tag.name.length + (itemsText earlier).length + gap.length) := by
        rw [OpenTag.attribute?, stands'.attributes_in]
        exact find?_first first rfl later _
      exact ⟨_, _, stands', LooseTag.apply_revalue split literal found, present', rfl⟩

/-- Writing a literal back leaves a tag whose parts are kept apart, with the written value in the
place of the old one. -/
theorem LooseTag.exists_written {tag : LooseTag} (stands : tag.Stands) {p s name text : Bytes}
    {a : Attribute} {encoding : Encoding}
    (present : (tag.reading p.length).attribute? (p ++ (tag.text ++ s)) name = some a)
    (classified : a.classify = .literal encoding text) (preserved : encoding.Preserves text) :
    ∃ (edited : LooseTag) (a' : Attribute), edited.Stands ∧
      (a.replaceValue (encoding.format text)).apply (p ++ (tag.text ++ s)) =
        p ++ (edited.text ++ s) ∧
      (edited.reading p.length).attribute? (p ++ (edited.text ++ s)) name = some a' ∧
      a'.raw = some (encoding.format text) := by
  obtain ⟨raw, written, parsed⟩ := parse_of_classify classified
  rcases Encoding.format_literal (Encoding.holds_of_parse parsed) preserved with
    literal | ⟨rfl, same⟩
  · exact LooseTag.exists_revalued stands present written literal
  · rw [same, ← Encoding.eq_of_parse_unquoted parsed]
    have sound := sound_of_openTag? (stands.openTag?_in p s)
    exact ⟨tag, a, stands, replaceValue_self sound (mem_of_attribute? present) written, present,
      written⟩

/-- Other bytes stand in place of the value of an attribute, and all others are as they were. -/
def ValueReplaced (source new id name raw : Bytes) : Prop :=
  ∃ tag a old x y, locateTag? source id = some tag ∧ tag.attribute? source name = some a ∧
    a.value = some ⟨x.length, old⟩ ∧ source = x ++ (old ++ y) ∧ new = x ++ (raw ++ y)

theorem readAttribute?_of_present {text id name : Bytes} {tag : OpenTag} {a : Attribute}
    (located : locateTag? text id = some tag) (present : tag.attribute? text name = some a) :
    readAttribute? text id name = some a.classify := by
  rw [readAttribute?, located, Option.bind_some]
  change (tag.attribute? text name).map (·.classify) = _
  rw [present, Option.map_some]

theorem exists_present {text id name : Bytes} {value : AttributeValue}
    (read : readAttribute? text id name = some value) :
    ∃ tag a, locateTag? text id = some tag ∧ tag.attribute? text name = some a ∧
      a.classify = value := by
  obtain ⟨tag, located, read⟩ := Option.bind_eq_some_iff.1 read
  obtain ⟨a, present, classified⟩ := Option.map_eq_some_iff.1 read
  exact ⟨tag, a, located, present, classified⟩

theorem valueReplaced {source id name old : Bytes} {tag : OpenTag} {a : Attribute}
    (located : locateTag? source id = some tag) (present : tag.attribute? source name = some a)
    (written : a.raw = some old) (raw : Bytes) :
    ValueReplaced source ((a.replaceValue raw).apply source) id name raw := by
  obtain ⟨v, value, rfl⟩ := Option.map_eq_some_iff.1 written
  have sound := ((sound_of_locateTag? located).attribute (mem_of_attribute? present)).value v value
  have front : (source.take v.start).length = v.start := by
    rw [List.length_take, Nat.min_eq_left sound.start.le]
  have whole : source.splice v.start (v.start + v.text.length)
      (source.slice v.start (v.start + v.text.length)) = source :=
    Bytes.splice_slice (Nat.le_add_right v.start v.text.length)
  rw [sound.text] at whole
  refine ⟨tag, a, v.text, source.take v.start, source.drop (v.start + v.text.length), located,
    present, ?_, whole.symm, ?_⟩
  · rw [front]
    exact value
  · rw [Attribute.replaceValue, value]
    rfl

namespace Edit

variable {source id name text : Bytes} {encoding : Encoding}
  (valid : isAttributeName name = true) (unmarked : name ≠ Marker.attributeName)

include valid unmarked

/-- A literal that was read is always accepted, and written in place of the old one. -/
theorem setAttribute_read (read : readAttribute? source id name = some (.literal encoding text)) :
    ∃ new, (setAttribute source id name text).map source.patch = .ok new ∧
      ValueReplaced source new id name (encoding.format text) := by
  obtain ⟨tag, a, located, present, classified⟩ := exists_present read
  obtain ⟨raw, written, -⟩ := parse_of_classify classified
  refine ⟨_, ?_, valueReplaced located present written _⟩
  rw [setAttribute_literal unmarked valid located present classified]
  rfl

omit valid unmarked

theorem holds_of_read (read : readAttribute? source id name = some (.literal encoding text)) :
    encoding.Holds text := by
  obtain ⟨tag, a, -, -, classified⟩ := exists_present read
  obtain ⟨raw, -, parsed⟩ := parse_of_classify classified
  exact Encoding.holds_of_parse parsed

/-- One round of an editor: the literal of an attribute is read and written back. -/
def resave (id name source : Bytes) : Bytes :=
  match readAttribute? source id name with
  | some (.literal _ text) =>
    match setAttribute source id name text with
    | .ok patches => source.patch patches
    | .error _ => source
  | _ => source

theorem resave_eq {new : Bytes}
    (read : readAttribute? source id name = some (.literal encoding text))
    (written : (setAttribute source id name text).map source.patch = .ok new) :
    resave id name source = new := by
  obtain ⟨patches, planned, rfl⟩ := map_eq_ok.1 written
  simp only [resave, read, planned]

/-- The text of a literal of the attribute, in whichever encoding. -/
def ReadsText (source id name text : Bytes) : Prop :=
  ∃ encoding, readAttribute? source id name = some (.literal encoding text)

section

variable {tag : LooseTag} {p s : Bytes}

include valid unmarked

/-- A literal of a tag as written is written back into such a tag. If the element stays where it
is, the value that was written is read. -/
theorem exists_writtenBack (stands : tag.Stands)
    (located : locateTag? (p ++ (tag.text ++ s)) id = some (tag.reading p.length))
    (read : readAttribute? (p ++ (tag.text ++ s)) id name = some (.literal encoding text))
    (preserved : encoding.Preserves text) :
    ∃ edited : LooseTag, edited.Stands ∧
      (setAttribute (p ++ (tag.text ++ s)) id name text).map (p ++ (tag.text ++ s)).patch =
        .ok (p ++ (edited.text ++ s)) ∧
      ((locateTag? (p ++ (edited.text ++ s)) id).map (·.start) = some p.length →
        ∃ a, locateTag? (p ++ (edited.text ++ s)) id = some (edited.reading p.length) ∧
          (edited.reading p.length).attribute? (p ++ (edited.text ++ s)) name = some a ∧
          a.raw = some (encoding.format text) ∧
          readAttribute? (p ++ (edited.text ++ s)) id name =
            some (.classify (some (encoding.format text)))) := by
  obtain ⟨found, a, here, present, classified⟩ := exists_present read
  obtain rfl : found = tag.reading p.length := Option.some.inj (here.symm.trans located)
  obtain ⟨edited, a', stands', after, present', written⟩ :=
    LooseTag.exists_written stands present classified preserved
  refine ⟨edited, stands', ?_, fun stays => ?_⟩
  · rw [setAttribute_literal unmarked valid located present classified, ← after]
    rfl
  · have located' := stands'.locateTag?_at stays
    refine ⟨a', located', present', written, ?_⟩
    rw [readAttribute?_of_present located' present', Attribute.classify, written]

/-- If the element stays where it is, the text is read again exactly if the encoding keeps it, and
then writing it back once more changes nothing. -/
theorem readsText_writtenBack {new : Bytes} (stands : tag.Stands)
    (located : locateTag? (p ++ (tag.text ++ s)) id = some (tag.reading p.length))
    (read : readAttribute? (p ++ (tag.text ++ s)) id name = some (.literal encoding text))
    (holds : encoding.Holds text) (preserved : encoding.Preserves text)
    (written : (setAttribute (p ++ (tag.text ++ s)) id name text).map
      (p ++ (tag.text ++ s)).patch = .ok new)
    (stays : (locateTag? new id).map (·.start) = some p.length) :
    (ReadsText new id name text ↔ encoding.Keeps text) ∧
      (encoding.Keeps text → resave id name new = new) := by
  obtain ⟨edited, -, written', again⟩ :=
    exists_writtenBack valid unmarked stands located read preserved
  obtain rfl : new = p ++ (edited.text ++ s) := Except.ok.inj (written.symm.trans written')
  obtain ⟨a, located', present, raw, reads⟩ := again stays
  obtain ⟨used, second, back⟩ := Encoding.format_readAgain holds preserved
  have classified : AttributeValue.classify (some (encoding.format text)) =
      .literal used second := by
    rw [AttributeValue.classify, back.parsed]
  rw [classified] at reads
  refine ⟨⟨fun readsText => ?_, fun keeps => ⟨used, ?_⟩⟩, fun keeps => ?_⟩
  · obtain ⟨other, same⟩ := readsText
    rw [reads] at same
    cases same
    exact back.same.1 rfl
  · rw [reads, back.same.2 keeps]
  · obtain rfl := back.same.2 keeps
    refine resave_eq reads ?_
    have literal : a.classify = .literal used second := by
      rw [Attribute.classify, raw, classified]
    rw [setAttribute_literal unmarked valid located' present literal, back.again rfl]
    exact congrArg Except.ok
      (replaceValue_self (sound_of_locateTag? located') (mem_of_attribute? present) raw)

/-- In braces a text with a backslash gets longer in each round. -/
theorem resave_grows (inBraces : encoding.InBraces) (n : Nat) (stands : tag.Stands)
    (stays : ∀ k ≤ n, (locateTag? ((resave id name)^[k] (p ++ (tag.text ++ s))) id).map (·.start) =
      some p.length)
    (read : readAttribute? (p ++ (tag.text ++ s)) id name = some (.literal encoding text))
    (holds : encoding.Holds text) (escaped : Byte.backslash ∈ text) :
    ∃ longer, readAttribute? ((resave id name)^[n] (p ++ (tag.text ++ s))) id name =
        some (.literal encoding longer) ∧ text.length + n ≤ longer.length := by
  induction n generalizing tag text with
  | zero => exact ⟨text, read, Nat.le_refl _⟩
  | succ n ih =>
      have located : locateTag? (p ++ (tag.text ++ s)) id = some (tag.reading p.length) :=
        stands.locateTag?_at (stays 0 (Nat.zero_le _))
      obtain ⟨edited, stands', written, again⟩ :=
        exists_writtenBack valid unmarked stands located read (inBraces.preserves holds)
      have round : resave id name (p ++ (tag.text ++ s)) = p ++ (edited.text ++ s) :=
        resave_eq read written
      have later (k : Nat) : (resave id name)^[k + 1] (p ++ (tag.text ++ s)) =
          (resave id name)^[k] (p ++ (edited.text ++ s)) := by
        rw [Function.iterate_succ_apply, round]
      have stays' : ∀ k ≤ n, (locateTag? ((resave id name)^[k] (p ++ (edited.text ++ s)))
          id).map (·.start) = some p.length := by
        intro k le
        rw [← later]
        exact stays (k + 1) (Nat.succ_le_succ le)
      obtain ⟨-, -, -, -, reads⟩ := again (stays' 0 (Nat.zero_le _))
      obtain ⟨longer, parsed, still, more⟩ := Encoding.format_grows inBraces holds escaped
      rw [AttributeValue.classify, parsed] at reads
      obtain ⟨last, readLast, most⟩ :=
        ih stands' stays' reads (Encoding.holds_of_parse parsed) still
      rw [later]
      exact ⟨last, readLast, by omega⟩

/-- A literal that was read is always accepted when it is written back, and nothing but its bytes is
replaced. Let the element have a tag whose parts are kept apart, and let the encoding preserve the
text. Then, if the element stays where it is, the text is read again exactly if the encoding keeps
it, and all further rounds leave the first one's result; while a text in braces with a backslash is
longer after each round. -/
theorem literal_writtenBack
    (read : readAttribute? source id name = some (.literal encoding text)) :
    ∃ new, (setAttribute source id name text).map source.patch = .ok new ∧
      ValueReplaced source new id name (encoding.format text) ∧
      ∀ (tag : LooseTag) (p s : Bytes), tag.Stands → source = p ++ (tag.text ++ s) →
        locateTag? source id = some (tag.reading p.length) → encoding.Preserves text →
        ((locateTag? new id).map (·.start) = some p.length →
          (ReadsText new id name text ↔ encoding.Keeps text) ∧
            (encoding.Keeps text → ∀ n, (resave id name)^[n + 1] source = new)) ∧
        (encoding.InBraces → Byte.backslash ∈ text → ∀ n,
          (∀ k ≤ n, (locateTag? ((resave id name)^[k] source) id).map (·.start) =
            some p.length) →
          ∃ longer, readAttribute? ((resave id name)^[n] source) id name =
            some (.literal encoding longer) ∧ text.length + n ≤ longer.length) := by
  obtain ⟨new, written, replaced⟩ := setAttribute_read valid unmarked read
  have holds : encoding.Holds text := holds_of_read read
  refine ⟨new, written, replaced, ?_⟩
  rintro tag p s stands rfl located preserved
  refine ⟨fun stays => ?_, fun inBraces escaped n stays =>
    resave_grows valid unmarked inBraces n stands stays read holds escaped⟩
  obtain ⟨reads, settled⟩ :=
    readsText_writtenBack valid unmarked stands located read holds preserved written stays
  refine ⟨reads, fun keeps n => ?_⟩
  rw [Function.iterate_succ_apply, resave_eq read written]
  exact Function.iterate_fixed (settled keeps) n

end

/-- The items of `<p title='it\'s' data-eid="x">`. -/
def escapedTitleItems : List SpacedItem :=
  [([Byte.space], .quoted Byte.singleQuote (utf8 "title") (utf8 "it\\'s")),
    ([Byte.space], markerItem (utf8 "x"))]

theorem escapedTitleItems_loose : ∀ x ∈ escapedTitleItems, SpacedItem.Loose x := by
  have blank : AllBlank [Byte.space] := by decide
  have title : QuotedText Byte.singleQuote (utf8 "it\\'s") :=
    .byte (by decide) (by decide) (.byte (by decide) (by decide)
      (.escape _ (.byte (by decide) (by decide) .nil)))
  have marked : QuotedText Byte.doubleQuote (utf8 "x") := .ofBytes (by decide)
  intro x mem
  simp only [escapedTitleItems, List.mem_cons, List.not_mem_nil, or_false] at mem
  obtain rfl | rfl := mem
  · exact ⟨blank, (Item.valid_quoted rfl (by decide) title).loose⟩
  · exact ⟨blank, (Item.valid_quoted rfl isItemName_attributeName marked).loose⟩

def escapedTitle : LooseTag where
  name := utf8 "p"
  items := escapedTitleItems
  gap := []
  slashed := false
  isName := markedParagraph.isName
  valid := escapedTitleItems_loose
  blank := .nil

/-- An escaped quote between single quotes is written between double ones, and stays so. -/
theorem escapedTitle_writtenBack :
    let source := utf8 "<p title='it\\'s' data-eid=\"x\">t</p>"
    let new := utf8 "<p title=\"it\\'s\" data-eid=\"x\">t</p>"
    let text := utf8 "it\\'s"
    isAttributeName (utf8 "title") = true ∧ utf8 "title" ≠ Marker.attributeName ∧
      readAttribute? source (utf8 "x") (utf8 "title") = some (.literal .singleQuoted text) ∧
      (setAttribute source (utf8 "x") (utf8 "title") text).map source.patch = .ok new ∧
      escapedTitle.Stands ∧ locateTag? source (utf8 "x") = some (escapedTitle.reading 0) ∧
      (locateTag? new (utf8 "x")).map (·.start) = some 0 ∧
      ReadsText new (utf8 "x") (utf8 "title") text ∧
      ∀ n, (resave (utf8 "x") (utf8 "title"))^[n + 1] source = new := by
  intro source new text
  have valid : isAttributeName (utf8 "title") = true := by decide +kernel
  have unmarked : utf8 "title" ≠ Marker.attributeName := by decide +kernel
  have read : readAttribute? source (utf8 "x") (utf8 "title") =
      some (.literal .singleQuoted text) := by decide +kernel
  have accepted : (setAttribute source (utf8 "x") (utf8 "title") text).map source.patch =
      .ok new := by decide +kernel
  have stands : escapedTitle.Stands := by decide +kernel
  have located : locateTag? source (utf8 "x") = some (escapedTitle.reading 0) := by decide +kernel
  have stays : (locateTag? new (utf8 "x")).map (·.start) = some 0 := by decide +kernel
  obtain ⟨new', written, -, rounds⟩ := literal_writtenBack valid unmarked read
  obtain rfl : new = new' := Except.ok.inj (accepted.symm.trans written)
  obtain ⟨reads, settled⟩ := (rounds escapedTitle [] (utf8 "t</p>") stands (by decide +kernel)
    located (by decide +kernel)).1 stays
  have keeps : Encoding.singleQuoted.Keeps text := by decide +kernel
  exact ⟨valid, unmarked, read, accepted, stands, located, stays, reads.2 keeps, settled keeps⟩

/-- Between braces the same text is escaped once more in each round. A text with both quotes comes
back with a reference. A backslash at the end of a value without delimiters takes along the quote
that the value gets. -/
theorem escapes_pile_up :
    let source := utf8 "<p title=\x7b'it\\'s'\x7d data-eid=\"x\">t</p>"
    let new := utf8 "<p title=\x7b'it\\\\\\'s'\x7d data-eid=\"x\">t</p>"
    let both := utf8 "<p title=\"it's \\\"a\\\"\" data-eid=\"x\">t</p>"
    let last := utf8 "<p data-eid=\"x\" title=a=\\>t</p>"
    (readAttribute? source (utf8 "x") (utf8 "title") =
        some (.literal .bracedSingle (utf8 "it\\'s")) ∧
      (setAttribute source (utf8 "x") (utf8 "title") (utf8 "it\\'s")).map source.patch = .ok new ∧
      readAttribute? new (utf8 "x") (utf8 "title") =
        some (.literal .bracedSingle (utf8 "it\\\\\\'s")) ∧
      ¬ ReadsText new (utf8 "x") (utf8 "title") (utf8 "it\\'s") ∧
      readAttribute? (resave (utf8 "x") (utf8 "title") new) (utf8 "x") (utf8 "title") =
        some (.literal .bracedSingle (utf8 "it\\\\\\\\\\\\\\'s"))) ∧
    (readAttribute? both (utf8 "x") (utf8 "title") =
        some (.literal .doubleQuoted (utf8 "it's \\\"a\\\"")) ∧
      readAttribute? (resave (utf8 "x") (utf8 "title") both) (utf8 "x") (utf8 "title") =
        some (.literal .doubleQuoted (utf8 "it's \\&quot;a\\&quot;"))) ∧
    (readAttribute? last (utf8 "x") (utf8 "title") = some (.literal .unquoted (utf8 "a=\\")) ∧
      resave (utf8 "x") (utf8 "title") last = utf8 "<p data-eid=\"x\" title=\"a=\\\">t</p>" ∧
      readAttribute? (resave (utf8 "x") (utf8 "title") last) (utf8 "x") (utf8 "title") = none) := by
  intro source new both last
  have reads : readAttribute? new (utf8 "x") (utf8 "title") =
      some (.literal .bracedSingle (utf8 "it\\\\\\'s")) := by decide +kernel
  refine ⟨⟨by decide +kernel, by decide +kernel, reads, ?_, by decide +kernel⟩,
    ⟨by decide +kernel, by decide +kernel⟩,
    ⟨by decide +kernel, by decide +kernel, by decide +kernel⟩⟩
  rintro ⟨encoding, same⟩
  rw [reads] at same
  cases same

end Edit

end MarkupEdit
