import MarkupEdit.Proofs.StyleLists
import MarkupEdit.Proofs.TagEdits

/-!
What the edits of a style do to its declarations. Setting a property gives the first declaration
of it another value, and removing it takes all its declarations away; both write a style that is
read as just these declarations.
-/

namespace MarkupEdit

open Bytes

namespace Style

/-- The first declaration of a property has got the value, or a new one stands behind the others,
none of which is of the property. -/
inductive SetsFirst (property value : Bytes) : List Declaration → List Declaration → Prop where
  | changed {earlier later : List Declaration} {name old : Bytes}
      (none : ∀ d ∈ earlier, d.isOf property = false)
      (same : name.sameIgnoringCase property = true) :
      SetsFirst property value (earlier ++ .property name old :: later)
        (earlier ++ .property name value :: later)
  | added {declarations : List Declaration}
      (none : ∀ d ∈ declarations, d.isOf property = false) :
      SetsFirst property value declarations (declarations ++ [.property property value])

theorem setsFirst_set (property value : Bytes) (declarations : List Declaration) :
    SetsFirst property value declarations (set property value declarations) := by
  have behind {d : Declaration} (other : d.isOf property = false)
      {old new : List Declaration} (h : SetsFirst property value old new) :
      SetsFirst property value (d :: old) (d :: new) := by
    cases h with
    | @changed earlier later name old none same =>
        have front : ∀ e ∈ d :: earlier, e.isOf property = false :=
          List.forall_mem_cons.2 ⟨other, none⟩
        exact SetsFirst.changed front same
    | added none => exact .added (List.forall_mem_cons.2 ⟨other, none⟩)
  induction declarations with
  | nil => exact .added (List.forall_mem_nil _)
  | cons d rest ih =>
      cases d with
      | property name old =>
          rw [set]
          split
          next same => exact @SetsFirst.changed _ _ [] rest name old (List.forall_mem_nil _) same
          next other => exact behind (by simpa [Declaration.isOf] using other) ih
      | other piece => exact behind rfl ih

theorem sameIgnoringCase_self (name : Bytes) : name.sameIgnoringCase name = true := by
  rw [sameIgnoringCase, beq_self_eq_true]

theorem set_set (property value : Bytes) (declarations : List Declaration) :
    set property value (set property value declarations) = set property value declarations := by
  induction declarations with
  | nil => simp [set, sameIgnoringCase_self]
  | cons d rest ih =>
      cases d with
      | property name old =>
          by_cases same : name.sameIgnoringCase property = true
          · simp [set, same]
          · simp [set, same, ih]
      | other piece => simp [set, ih]

theorem remove_eq_self {property : Bytes} {declarations : List Declaration} :
    remove property declarations = declarations ↔ ∀ d ∈ declarations, d.isOf property = false := by
  simp [remove, List.filter_eq_self]

theorem remove_eq_nil {property : Bytes} {declarations : List Declaration} :
    remove property declarations = [] ↔ ∀ d ∈ declarations, d.isOf property = true := by
  simp [remove, List.filter_eq_nil_iff]

namespace SetsFirst

variable {property value : Bytes} {old new : List Declaration}
  (h : SetsFirst property value old new)

include h

theorem ne_nil : new ≠ [] := by
  cases h with
  | changed => exact List.append_ne_nil_of_right_ne_nil _ (List.cons_ne_nil _ _)
  | added => exact List.append_ne_nil_of_right_ne_nil _ (List.cons_ne_nil _ _)

/-- What was added last goes again. -/
theorem remove (none : ∀ d ∈ old, d.isOf property = false) : Style.remove property new = old := by
  cases h with
  | changed earlier same =>
      have here := none _ (List.mem_append_right _ List.mem_cons_self)
      rw [Declaration.isOf, same] at here
      cases here
  | added =>
      have gone : Style.remove property [.property property value] = [] :=
        remove_eq_nil.2 (by simp [Declaration.isOf, sameIgnoringCase_self])
      rw [Style.remove, List.filter_append, ← Style.remove, ← Style.remove,
        remove_eq_self.2 none, gone, List.append_nil]

theorem tidy (set : (Declaration.property property value).Tidy) (tidy : ∀ d ∈ old, d.Tidy) :
    ∀ d ∈ new, d.Tidy := by
  cases h with
  | changed none same =>
      obtain ⟨front, back⟩ := List.forall_mem_append.1 tidy
      obtain ⟨⟨trimmed, -, colon, semicolon, -⟩, later⟩ := List.forall_mem_cons.1 back
      exact List.forall_mem_append.2 ⟨front,
        List.forall_mem_cons.2 ⟨⟨trimmed, set.2.1, colon, semicolon, set.2.2.2.2⟩, later⟩⟩
  | added => exact List.forall_mem_append.2 ⟨tidy, List.forall_mem_singleton.2 set⟩

end SetsFirst

section Names

variable {name : Bytes} (valid : isPropertyName name = true)

include valid

theorem notMem_of_isPropertyName {c : UInt8}
    (other : (Byte.isAlphanumeric c || c == Byte.hyphen || c == Byte.underscore) = false) :
    c ∉ name := by
  intro mem
  rw [isPropertyName, Bool.and_eq_true, List.all_eq_true] at valid
  rw [valid.2 c mem] at other
  cases other

theorem trimmed_of_isPropertyName : Trimmed name := by
  have white : ∀ form ∈ spaceForms, ∀ c ∈ form,
      (Byte.isAlphanumeric c || c == Byte.hyphen || c == Byte.underscore) = false := by
    decide +kernel
  exact trimmed_of_ink fun c mem form among inside =>
    notMem_of_isPropertyName valid (white form among c inside) mem

theorem tidy_property {value : Bytes} (trimmed : Trimmed value) (plain : Byte.semicolon ∉ value) :
    (Declaration.property name value).Tidy :=
  ⟨trimmed_of_isPropertyName valid, trimmed, notMem_of_isPropertyName valid (by decide),
    notMem_of_isPropertyName valid (by decide), plain⟩

end Names

theorem tidy_remove {property : Bytes} {declarations : List Declaration}
    (tidy : ∀ d ∈ declarations, d.Tidy) : ∀ d ∈ remove property declarations, d.Tidy :=
  fun d mem => tidy d (List.mem_filter.1 mem).1

/-- The style that is written for a style when a property is set. -/
def withProperty (property value style : Bytes) : Bytes :=
  format (set property value (parse style)) (isClosed style)

/-- The style that is written for a style when a property is removed. -/
def withoutProperty (property style : Bytes) : Bytes :=
  format (remove property (parse style)) (isClosed style)

/-- What the declarations of a style are once a property was set. -/
structure PropertySet (property value old new : Bytes) : Prop where
  sets : SetsFirst property value (parse old) (parse new)
  closed : new.getLast? = some Byte.semicolon ↔ isClosed old = true
  again : withProperty property value new = new
  undone : (∀ d ∈ parse old, d.isOf property = false) →
    parse (withoutProperty property new) = parse old

/-- What the declarations of a style are once a property was removed. -/
structure PropertyRemoved (property old new : Bytes) : Prop where
  removes : parse new = (parse old).filter (!·.isOf property)
  closed : new.getLast? = some Byte.semicolon ↔ isClosed old = true

theorem propertySet_withProperty {property value : Bytes} (valid : isPropertyName property = true)
    (trimmed : Trimmed value) (plain : Byte.semicolon ∉ value) (style : Bytes) :
    PropertySet property value style (withProperty property value style) := by
  have sets := setsFirst_set property value (parse style)
  have tidy := sets.tidy (tidy_property valid trimmed plain) tidy_parse
  have read : parse (withProperty property value style) = set property value (parse style) :=
    parse_format tidy _
  have ended : isClosed (withProperty property value style) = isClosed style :=
    isClosed_format tidy sets.ne_nil _
  exact {
    sets := read ▸ sets
    closed := getLast?_format tidy sets.ne_nil _
    again := by rw [withProperty, read, ended, set_set, withProperty]
    undone := fun none => by
      rw [withoutProperty, parse_format (tidy_remove tidy_parse), read, sets.remove none] }

theorem propertyRemoved_withoutProperty {property style : Bytes}
    (some : ∃ d ∈ parse style, d.isOf property = false) :
    PropertyRemoved property style (withoutProperty property style) := by
  have tidy : ∀ d ∈ remove property (parse style), d.Tidy := tidy_remove tidy_parse
  have ne : remove property (parse style) ≠ [] := by
    obtain ⟨d, mem, other⟩ := some
    intro all
    rw [remove_eq_nil.1 all d mem] at other
    cases other
  exact { removes := parse_format tidy _, closed := getLast?_format tidy ne _ }

end Style

namespace Edit

/-- The style of a tag, which is empty if there is none, and the patch that writes another one in
the encoding of the attribute. -/
inductive StyleAt (text : Bytes) (tag : OpenTag) : Bytes → (Bytes → Patch) → Prop where
  | absent (none : tag.attribute? text styleName = none) :
      StyleAt text tag [] fun style => tag.insertAttribute text (writeAttribute styleName style)
  | bare {a : Attribute} (found : tag.attribute? text styleName = some a)
      (bare : a.classify = .bare) :
      StyleAt text tag [] fun style => a.replaceValue (Encoding.doubleQuoted.format style)
  | literal {a : Attribute} {encoding : Encoding} {style : Bytes}
      (found : tag.attribute? text styleName = some a)
      (literal : a.classify = .literal encoding style) :
      StyleAt text tag style fun style => a.replaceValue (encoding.format style)

/-- What is written in a tag when a property is removed from its style: nothing if there is no
declaration of it, and the attribute goes if there are only such declarations. -/
inductive RemovesProperty (text : Bytes) (tag : OpenTag) (property style : Bytes)
    (write : Bytes → Patch) : List Patch → Prop where
  | untouched (none : ∀ d ∈ Style.parse style, d.isOf property = false) :
      RemovesProperty text tag property style write []
  | emptied {a : Attribute} (one : ∃ d ∈ Style.parse style, d.isOf property = true)
      (all : ∀ d ∈ Style.parse style, d.isOf property = true)
      (found : tag.attribute? text styleName = some a) :
      RemovesProperty text tag property style write [tag.removeAttribute text a]
  | kept (one : ∃ d ∈ Style.parse style, d.isOf property = true)
      (other : ∃ d ∈ Style.parse style, d.isOf property = false) :
      RemovesProperty text tag property style write [write (Style.withoutProperty property style)]

theorem declarationValue_of_plain {value : Bytes} (trimmed : Trimmed value)
    (plain : Byte.semicolon ∉ value) : declarationValue value = value := by
  have kept : value.reverse.dropWhile (· == Byte.semicolon) = value.reverse := by
    cases split : value.reverse with
    | nil => rfl
    | cons c t =>
        have mem : c ∈ value := List.mem_reverse.1 (by rw [split]; exact List.mem_cons_self)
        rw [List.dropWhile_cons_of_neg]
        simpa using fun same : c = Byte.semicolon => plain (same ▸ mem)
  rw [declarationValue, trimmed, kept, List.reverse_reverse]

/-- Setting a property writes the new style in place of the old one. -/
theorem setStyle_eq_ok_iff {text id property value : Bytes} {patches : List Patch}
    (valid : Style.isPropertyName property = true) (trimmed : Trimmed value)
    (plain : Byte.semicolon ∉ value) :
    setStyle text id property value = .ok patches ↔
      ∃ tag style write, findTag text id = .ok tag ∧ StyleAt text tag style write ∧
        patches = [write (Style.withProperty property value style)] := by
  have name : property.trim = property := Style.trimmed_of_isPropertyName valid
  have alone : (Style.Declaration.property property value).format =
      Style.withProperty property value [] := by
    have unclosed : Style.isClosed [] = false := by
      rw [Style.isClosed, trimmed_nil.trimEnd]
      rfl
    rw [Style.withProperty, Style.parse_nil, unclosed]
    exact (Style.joined_singleton _).symm
  simp only [setStyle, name, valid, declarationValue_of_plain trimmed plain, Bool.true_eq_false,
    if_false, alone]
  constructor
  · intro h
    obtain ⟨tag, found, h⟩ := bind_eq_ok.1 h
    split at h
    next none =>
      cases h
      exact ⟨tag, _, _, found, .absent none, rfl⟩
    next a present =>
      split at h
      next encoding style literal =>
        cases h
        exact ⟨tag, _, _, found, .literal present literal, rfl⟩
      next bare =>
        cases h
        exact ⟨tag, _, _, found, .bare present bare, rfl⟩
      next => cases h
  · rintro ⟨tag, style, write, found, place, rfl⟩
    refine bind_eq_ok.2 ⟨tag, found, ?_⟩
    cases place with
    | absent none => rw [none]; rfl
    | bare present bare =>
        rw [present]
        dsimp only
        rw [bare]
        rfl
    | literal present literal =>
        rw [present]
        dsimp only
        rw [literal]
        rfl

section

variable {text : Bytes} {tag : OpenTag} {property style : Bytes} {write : Bytes → Patch}
  {patches : List Patch}

/-- The declarations of a style settle what is written. -/
theorem removesProperty_iff {a : Attribute} (present : tag.attribute? text styleName = some a) :
    RemovesProperty text tag property style write patches ↔
      (if ∀ d ∈ Style.parse style, d.isOf property = false then .ok []
        else if ∀ d ∈ Style.parse style, d.isOf property = true then
          .ok [tag.removeAttribute text a]
        else .ok [write (Style.withoutProperty property style)] : Except EditError _) =
          .ok patches := by
  have one : ¬ (∀ d ∈ Style.parse style, d.isOf property = false) ↔
      ∃ d ∈ Style.parse style, d.isOf property = true := by
    simp
  have other : ¬ (∀ d ∈ Style.parse style, d.isOf property = true) ↔
      ∃ d ∈ Style.parse style, d.isOf property = false := by
    simp
  constructor
  · intro removes
    cases removes with
    | untouched none => rw [if_pos none]
    | emptied some all found =>
        cases present.symm.trans found
        rw [if_neg (one.2 some), if_pos all]
    | kept some mixed => rw [if_neg (one.2 some), if_neg (other.2 mixed)]
  · intro h
    split at h
    next none =>
      cases h
      exact .untouched none
    next some =>
      split at h
      next all =>
        cases h
        exact .emptied (one.1 some) all present
      next mixed =>
        cases h
        exact .kept (one.1 some) (other.1 mixed)

/-- An empty style has no declaration to be removed. -/
theorem removesProperty_empty :
    RemovesProperty text tag property [] write patches ↔ patches = [] := by
  have never (some : ∃ d ∈ Style.parse [], d.isOf property = true) : False := by
    rw [Style.parse_nil] at some
    obtain ⟨d, mem, -⟩ := some
    cases mem
  constructor
  · intro removes
    cases removes with
    | untouched => rfl
    | emptied some => exact (never some).elim
    | kept some => exact (never some).elim
  · rintro rfl
    refine .untouched ?_
    rw [Style.parse_nil]
    exact List.forall_mem_nil _

/-- Removing a property writes the remaining declarations in place of the old style. -/
theorem removeStyle_eq_ok_iff {id : Bytes} (valid : Style.isPropertyName property = true) :
    removeStyle text id property = .ok patches ↔
      ∃ tag style write, findTag text id = .ok tag ∧ StyleAt text tag style write ∧
        RemovesProperty text tag property style write patches := by
  have name : property.trim = property := Style.trimmed_of_isPropertyName valid
  have length {style : Bytes} : (Style.remove property (Style.parse style)).length =
      (Style.parse style).length ↔ ∀ d ∈ Style.parse style, d.isOf property = false := by
    simp [Style.remove]
  simp only [removeStyle, name, length, List.isEmpty_iff, Style.remove_eq_nil]
  constructor
  · intro h
    obtain ⟨tag, found, h⟩ := bind_eq_ok.1 h
    split at h
    next none =>
      cases h
      exact ⟨tag, _, _, found, .absent none, removesProperty_empty.2 rfl⟩
    next a present =>
      split at h
      next bare =>
        cases h
        exact ⟨tag, _, _, found, .bare present bare, removesProperty_empty.2 rfl⟩
      next => cases h
      next encoding style literal =>
        exact ⟨tag, _, _, found, .literal present literal, (removesProperty_iff present).2 h⟩
  · rintro ⟨tag, style, write, found, place, removes⟩
    refine bind_eq_ok.2 ⟨tag, found, ?_⟩
    cases place with
    | absent none =>
        rw [none, removesProperty_empty.1 removes]
        rfl
    | bare present bare =>
        rw [present, removesProperty_empty.1 removes]
        dsimp only
        rw [bare]
        rfl
    | literal present literal =>
        rw [present]
        dsimp only
        rw [literal]
        exact (removesProperty_iff present).1 removes

end

/-- Declarations survive being written, and each edit of a style does to them what it says. -/
theorem style_declarations_kept :
    (∀ style closed, Style.parse (Style.format (Style.parse style) closed) = Style.parse style) ∧
    (∀ {property value}, Style.isPropertyName property = true → Byte.semicolon ∉ value →
      Trimmed value → ∀ style,
        Style.PropertySet property value style (Style.withProperty property value style)) ∧
    (∀ {property style}, (∃ d ∈ Style.parse style, d.isOf property = false) →
      Style.PropertyRemoved property style (Style.withoutProperty property style)) ∧
    (∀ {text id property value patches}, Style.isPropertyName property = true →
      Byte.semicolon ∉ value → Trimmed value →
        (setStyle text id property value = .ok patches ↔
          ∃ tag style write, findTag text id = .ok tag ∧ StyleAt text tag style write ∧
            patches = [write (Style.withProperty property value style)])) ∧
    (∀ {text id property patches}, Style.isPropertyName property = true →
      (removeStyle text id property = .ok patches ↔
        ∃ tag style write, findTag text id = .ok tag ∧ StyleAt text tag style write ∧
          RemovesProperty text tag property style write patches)) :=
  ⟨fun _ closed => Style.parse_format Style.tidy_parse closed,
    fun valid plain trimmed => Style.propertySet_withProperty valid trimmed plain,
    Style.propertyRemoved_withoutProperty,
    fun valid plain trimmed => setStyle_eq_ok_iff valid trimmed plain,
    removeStyle_eq_ok_iff⟩

def colouredTwice : Bytes :=
  utf8 "<p data-eid=\"x\" style=\"color: red; Color : blue; margin: 0;\">t</p>"

/-- Setting the property changes its first declaration, removing it takes both away, and the
semicolon at the end stays. -/
theorem style_declarations_kept_repeated :
    Style.PropertySet (utf8 "color") (utf8 "green") (utf8 "color: red; Color : blue; margin: 0;")
        (Style.withProperty (utf8 "color") (utf8 "green")
          (utf8 "color: red; Color : blue; margin: 0;")) ∧
      Style.PropertyRemoved (utf8 "color") (utf8 "color: red; Color : blue; margin: 0;")
        (Style.withoutProperty (utf8 "color") (utf8 "color: red; Color : blue; margin: 0;")) ∧
      (∃ tag style write, findTag colouredTwice (utf8 "x") = .ok tag ∧
        StyleAt colouredTwice tag style write ∧
        [⟨22, 60, utf8 "\"color: green; Color: blue; margin: 0;\""⟩] =
          [write (Style.withProperty (utf8 "color") (utf8 "green") style)]) ∧
      (∃ tag style write, findTag colouredTwice (utf8 "x") = .ok tag ∧
        StyleAt colouredTwice tag style write ∧
        RemovesProperty colouredTwice tag (utf8 "color") style write
          [⟨22, 60, utf8 "\"margin: 0;\""⟩]) := by
  obtain ⟨-, set, removed, setWritten, removeWritten⟩ := style_declarations_kept
  have valid : Style.isPropertyName (utf8 "color") = true := by decide +kernel
  have plain : Byte.semicolon ∉ utf8 "green" := by decide +kernel
  have trimmed : Trimmed (utf8 "green") := by decide +kernel
  exact ⟨set valid plain trimmed _, removed (by decide +kernel),
    (setWritten valid plain trimmed).1 (by decide +kernel),
    (removeWritten valid).1 (by decide +kernel)⟩

/-- An empty style stays where it is: no declaration of the property is left in it, but none was
taken away either. -/
theorem empty_style_stays :
    readAttribute? (utf8 "<p data-eid=\"x\" style=\"\">t</p>") (utf8 "x") styleName =
        some (.literal .doubleQuoted []) ∧
      (Style.parse []).filter (!·.isOf (utf8 "color")) = [] ∧
      removeStyle (utf8 "<p data-eid=\"x\" style=\"\">t</p>") (utf8 "x") (utf8 "color") =
        .ok [] := by
  decide +kernel

end Edit
end MarkupEdit
