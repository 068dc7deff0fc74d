import MarkupEdit.Proofs.StyleReading
import MarkupEdit.Proofs.LiteralsWrittenBack

/-!
Setting a property of a style that stands between double quotes, seen by who reads the style.
The edit is always accepted, and writes nothing but the value of the attribute. Where the pieces
of the style stay what they are, the reader finds the property set exactly if its first declaration
was the last one too.
-/

namespace MarkupEdit

open Bytes

namespace Edit

/-- The style that is read has the property set, and its other declarations as they were. -/
def SetsStyle (source new id property value : Bytes) : Prop :=
  ∃ before old after style, readAttribute? source id styleName = some (.literal before old) ∧
    readAttribute? new id styleName = some (.literal after style) ∧
    Style.SetsProperty property value (Style.read old) (Style.read style)

theorem setsStyle_iff {source new id property value old style : Bytes} {before after : Encoding}
    (readOld : readAttribute? source id styleName = some (.literal before old))
    (readNew : readAttribute? new id styleName = some (.literal after style)) :
    SetsStyle source new id property value ↔
      Style.SetsProperty property value (Style.read old) (Style.read style) := by
  constructor
  · rintro ⟨before', old', after', style', readOld', readNew', sets⟩
    rw [readOld] at readOld'
    rw [readNew] at readNew'
    cases readOld'
    cases readNew'
    exact sets
  · exact fun sets => ⟨before, old, after, style, readOld, readNew, sets⟩

theorem declarationValue_of_notMem {value : Bytes} (plain : Byte.semicolon ∉ value) :
    declarationValue value = value.trim := by
  have same : declarationValue value = declarationValue value.trim := by
    rw [declarationValue, declarationValue, trimmed_trim value]
  rw [same, declarationValue_of_plain (trimmed_trim value) fun mem => plain (trim_subset value mem)]

section

variable {source id property value style : Bytes} {encoding : Encoding}
  (valid : Style.isPropertyName property = true) (plain : Byte.semicolon ∉ value)

include valid plain

theorem setStyle_read {tag : OpenTag} {a : Attribute} (located : locateTag? source id = some tag)
    (present : tag.attribute? source styleName = some a)
    (classified : a.classify = .literal encoding style) :
    setStyle source id property value = .ok
      [a.replaceValue (encoding.format (Style.withProperty property value.trim style))] := by
  have trimmed := trimmed_trim value
  have plain' : Byte.semicolon ∉ value.trim := fun mem => plain (trim_subset value mem)
  have same : setStyle source id property value = setStyle source id property value.trim := by
    rw [setStyle, setStyle, declarationValue_of_notMem plain, declarationValue_of_notMem plain',
      trimmed]
  rw [same, setStyle_eq_ok_iff valid trimmed plain']
  exact ⟨tag, style, _, findTag_eq_ok.2 located, .literal present classified, rfl⟩

/-- Setting a property of a style between double quotes is always accepted, and replaces nothing but
the bytes of the style. Let the element have a tag whose parts are kept apart, stay where it is, and
let the new style be written without escapes. Then, if the value stands alone and the pieces of the
style stay what they are, the property is set, as the style is read, exactly if it had one
declaration at most, or the last one had the value already. -/
theorem setStyle_asRead
    (read : readAttribute? source id styleName = some (.literal .doubleQuoted style)) :
    ∃ new, (setStyle source id property value).map source.patch = .ok new ∧
      ValueReplaced source new id styleName
        (Encoding.doubleQuoted.format (Style.withProperty property value.trim style)) ∧
      ∀ (tag : LooseTag) (p s : Bytes), tag.Stands → source = p ++ (tag.text ++ s) →
        locateTag? source id = some (tag.reading p.length) →
        (locateTag? new id).map (·.start) = some p.length →
        Encoding.opensEscape (Style.withProperty property value.trim style) = false →
        Encoding.doubleQuoted.Keeps (Style.withProperty property value.trim style) →
        Style.StandsAlone value.trim → Style.AllKept property style →
        (SetsStyle source new id property value.trim ↔
          Style.Settled property value.trim (Style.read style)) := by
  obtain ⟨found, a, located, present, classified⟩ := exists_present read
  obtain ⟨raw, written, -⟩ := parse_of_classify classified
  have planned := setStyle_read valid plain located present classified
  let result := Style.withProperty property value.trim style
  refine ⟨(a.replaceValue (Encoding.doubleQuoted.format result)).apply source,
    by rw [planned]; rfl, valueReplaced located present written _, ?_⟩
  rintro tag p s stands rfl here stays even keeps alone kept
  obtain rfl : found = tag.reading p.length := Option.some.inj (located.symm.trans here)
  have isQuote : Byte.isQuote Byte.singleQuote = true := rfl
  obtain ⟨edited, a', stands', after, present', written'⟩ :=
    LooseTag.exists_revalued stands present written
      (Encoding.literal_formatQuoted .double isQuote even)
  obtain ⟨used, again, back⟩ := Encoding.readAgain_formatQuoted .double isQuote even
  obtain rfl : again = result := back.same.2 keeps
  change (locateTag? ((a.replaceValue (Encoding.formatDouble result)).apply _) id).map _ = _
    at stays
  change SetsStyle _ ((a.replaceValue (Encoding.formatDouble result)).apply _) _ _ _ ↔ _
  rw [Encoding.formatDouble, after] at stays ⊢
  have located' := stands'.locateTag?_at stays
  have reads : readAttribute? (p ++ (edited.text ++ s)) id styleName =
      some (.literal used result) := by
    rw [readAttribute?_of_present located' present', Attribute.classify, written',
      AttributeValue.classify, back.parsed]
  have plain' : Byte.semicolon ∉ value.trim := fun mem => plain (trim_subset value mem)
  have asRead : Style.read result = Style.set property value.trim (Style.read style) :=
    Style.read_withProperty valid (trimmed_trim value) plain' alone kept
  rw [setsStyle_iff read reads, asRead]
  exact (Style.setsFirst_set property value.trim (Style.read style)).setsProperty_iff

end

/-- The items of `<p data-eid="x" style="font-family: 'a; b'; color: red">`. -/
def quotedFontItems : List SpacedItem :=
  [([Byte.space], markerItem (utf8 "x")),
    ([Byte.space], .quoted Byte.doubleQuote styleName (utf8 "font-family: 'a; b'; color: red"))]

theorem quotedFontItems_loose : ∀ x ∈ quotedFontItems, SpacedItem.Loose x := by
  have blank : AllBlank [Byte.space] := by decide
  have marked : QuotedText Byte.doubleQuote (utf8 "x") := .ofBytes (by decide)
  have style : QuotedText Byte.doubleQuote (utf8 "font-family: 'a; b'; color: red") :=
    .ofBytes (by decide +kernel)
  intro x mem
  simp only [quotedFontItems, List.mem_cons, List.not_mem_nil, or_false] at mem
  obtain rfl | rfl := mem
  · exact ⟨blank, (Item.valid_quoted rfl isItemName_attributeName marked).loose⟩
  · exact ⟨blank, (Item.valid_quoted rfl (by decide) style).loose⟩

def quotedFont : LooseTag where
  name := utf8 "p"
  items := quotedFontItems
  gap := []
  slashed := false
  isName := markedParagraph.isName
  valid := quotedFontItems_loose
  blank := .nil

/-- A semicolon between quotes with a blank behind it stays as it is. -/
theorem quotedFont_set :
    let source := utf8 "<p data-eid=\"x\" style=\"font-family: 'a; b'; color: red\">t</p>"
    let new := utf8 "<p data-eid=\"x\" style=\"font-family: 'a; b'; color: blue\">t</p>"
    let style := utf8 "font-family: 'a; b'; color: red"
    Style.isPropertyName (utf8 "color") = true ∧ Byte.semicolon ∉ utf8 " blue" ∧
      readAttribute? source (utf8 "x") styleName = some (.literal .doubleQuoted style) ∧
      (setStyle source (utf8 "x") (utf8 "color") (utf8 " blue")).map source.patch = .ok new ∧
      quotedFont.Stands ∧ locateTag? source (utf8 "x") = some (quotedFont.reading 0) ∧
      Style.AllKept (utf8 "color") style ∧
      SetsStyle source new (utf8 "x") (utf8 "color") (utf8 " blue").trim := by
  intro source new style
  have valid : Style.isPropertyName (utf8 "color") = true := by decide +kernel
  have plain : Byte.semicolon ∉ utf8 " blue" := by decide +kernel
  have read : readAttribute? source (utf8 "x") styleName = some (.literal .doubleQuoted style) := by
    decide +kernel
  have accepted : (setStyle source (utf8 "x") (utf8 "color") (utf8 " blue")).map source.patch =
      .ok new := by decide +kernel
  have stands : quotedFont.Stands := by decide +kernel
  have located : locateTag? source (utf8 "x") = some (quotedFont.reading 0) := by decide +kernel
  have kept : Style.AllKept (utf8 "color") style := by decide +kernel
  obtain ⟨new', written, -, sets⟩ := setStyle_asRead valid plain read
  obtain rfl : new = new' := Except.ok.inj (accepted.symm.trans written)
  refine ⟨valid, plain, read, accepted, stands, located, kept, ?_⟩
  have once : ((Style.read style).filter (·.isOf (utf8 "color"))).length ≤ 1 := by decide +kernel
  exact (sets quotedFont [] (utf8 "t</p>") stands (by decide +kernel) located (by decide +kernel)
    (by decide +kernel) (by decide +kernel) (by decide +kernel) kept).2 (.inl once)

/-- A data URL gets a blank into it, and a name between references to quotes takes in what stands
behind it. Of two declarations the first one is changed, so the last one is not. -/
theorem styles_read_otherwise :
    let url := utf8 "<p data-eid=\"x\" style=\"background: url(data:image/png;base64,AA)\">t</p>"
    let url' := utf8
      "<p data-eid=\"x\" style=\"background: url(data:image/png; base64,AA); color: red\">t</p>"
    let font := utf8 "<p data-eid=\"x\" style=\"font-family: &quot;a&quot;; margin: 0\">t</p>"
    let font' := utf8
      "<p data-eid=\"x\" style=\"font-family: &quot; a&quot; margin: 0; color: red\">t</p>"
    let twice := utf8 "<p data-eid=\"x\" style=\"color: green; color: blue\">t</p>"
    let twice' := utf8 "<p data-eid=\"x\" style=\"color: red; color: blue\">t</p>"
    ((setStyle url (utf8 "x") (utf8 "color") (utf8 "red")).map url.patch = .ok url' ∧
      ¬ SetsStyle url url' (utf8 "x") (utf8 "color") (utf8 "red")) ∧
    ((setStyle font (utf8 "x") (utf8 "color") (utf8 "red")).map font.patch = .ok font' ∧
      ¬ SetsStyle font font' (utf8 "x") (utf8 "color") (utf8 "red")) ∧
    ((setStyle twice (utf8 "x") (utf8 "color") (utf8 "red")).map twice.patch = .ok twice' ∧
      ¬ SetsStyle twice twice' (utf8 "x") (utf8 "color") (utf8 "red")) := by
  intro url url' font font' twice twice'
  refine ⟨⟨by decide +kernel, ?_⟩, ⟨by decide +kernel, ?_⟩, ⟨by decide +kernel, ?_⟩⟩
  · have before : readAttribute? url (utf8 "x") styleName = some (.literal .doubleQuoted
        (utf8 "background: url(data:image/png;base64,AA)")) := by decide +kernel
    have after : readAttribute? url' (utf8 "x") styleName = some (.literal .doubleQuoted
        (utf8 "background: url(data:image/png; base64,AA); color: red")) := by decide +kernel
    rw [setsStyle_iff before after]
    exact fun sets => absurd sets.others (by decide +kernel)
  · have before : readAttribute? font (utf8 "x") styleName = some (.literal .doubleQuoted
        (utf8 "font-family: &quot;a&quot;; margin: 0")) := by decide +kernel
    have after : readAttribute? font' (utf8 "x") styleName = some (.literal .doubleQuoted
        (utf8 "font-family: &quot; a&quot; margin: 0; color: red")) := by decide +kernel
    rw [setsStyle_iff before after]
    exact fun sets => absurd sets.others (by decide +kernel)
  · have before : readAttribute? twice (utf8 "x") styleName = some (.literal .doubleQuoted
        (utf8 "color: green; color: blue")) := by decide +kernel
    have after : readAttribute? twice' (utf8 "x") styleName = some (.literal .doubleQuoted
        (utf8 "color: red; color: blue")) := by decide +kernel
    rw [setsStyle_iff before after]
    intro sets
    obtain ⟨name, last⟩ := sets.last
    have blue : ((Style.read (utf8 "color: red; color: blue")).filter
        (·.isOf (utf8 "color"))).getLast? =
          some (.property (utf8 "color") (utf8 "blue")) := by decide +kernel
    rw [blue] at last
    cases last

end Edit

end MarkupEdit
