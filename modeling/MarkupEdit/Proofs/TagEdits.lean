import MarkupEdit.Edit.Attribute
import MarkupEdit.Edit.Classes
import MarkupEdit.Edit.Style
import MarkupEdit.Proofs.Owner
import MarkupEdit.Proofs.TagSeams

/-!
The edits of an opening tag. Each plans at most one patch, which puts in an attribute, takes one
away, or gives one another value; its range lies in the tag and runs from seam to seam.
-/

namespace MarkupEdit

theorem sound_of_openTag? {text : Bytes} {i : Nat} {tag : OpenTag}
    (h : Units.openTag? text i = some tag) : tag.Sound text := by
  obtain ⟨t, rest, opened⟩ := Units.openTag?_eq_some_iff.1 h
  obtain ⟨less, tail, -⟩ := drop_eq_cons rest
  rw [← tail] at opened
  exact sound_openTag? less opened

theorem sound_of_locateTag? {text id : Bytes} {tag : OpenTag}
    (h : locateTag? text id = some tag) : tag.Sound text := by
  obtain ⟨m, -, k, owns, -⟩ := locateTag?_eq_some_iff.1 h
  exact sound_of_openTag? owns.opens

theorem bind_eq_ok {α β : Type} {x : Except Refusal α} {f : α → Except Refusal β} {b : β} :
    (x >>= f) = .ok b ↔ ∃ a, x = .ok a ∧ f a = .ok b := by
  cases x with
  | error refusal => simp [bind, Except.bind]
  | ok a => simp [bind, Except.bind]

theorem map_eq_ok {α β : Type} {x : Except Refusal α} {f : α → β} {b : β} :
    x.map f = .ok b ↔ ∃ a, x = .ok a ∧ f a = b := by
  cases x with
  | error refusal => simp [Except.map]
  | ok a => simp [Except.map]

theorem findTag_eq_ok {text id : Bytes} {tag : OpenTag} :
    findTag text id = .ok tag ↔ locateTag? text id = some tag := by
  rw [findTag]
  cases locateTag? text id with
  | none => simp
  | some found => simp

theorem mem_of_attribute? {text name : Bytes} {tag : OpenTag} {a : Attribute}
    (h : tag.attribute? text name = some a) : a ∈ tag.attributes text :=
  List.mem_of_find?_eq_some h

theorem name_of_attribute? {text name : Bytes} {tag : OpenTag} {a : Attribute}
    (h : tag.attribute? text name = some a) : a.name = name := by
  simpa using List.find?_some h

/-- A patch whose range runs from seam to seam. -/
structure Patch.Seamed (text : Bytes) (q : Patch) : Prop where
  start : Seam text q.start
  stop : Seam text q.stop
  le : q.start ≤ q.stop

/-- A patch whose range lies in a text. -/
structure Patch.Within (text : Bytes) (q : Patch) : Prop where
  le : q.start ≤ q.stop
  inside : q.stop ≤ text.length

theorem Patch.Seamed.toWithin {text : Bytes} {q : Patch} (h : q.Seamed text) : q.Within text :=
  ⟨h.le, h.stop.le⟩

/-- `R` holds of each patch and of the text that the patches before it leave. -/
def Bytes.Each (R : Bytes → Patch → Prop) (text : Bytes) : List Patch → Prop
  | [] => True
  | q :: rest => R text q ∧ Each R (q.apply text) rest

/-- The attribute is not the marker, and its value is not bound to an expression. -/
structure Attribute.Editable (a : Attribute) : Prop where
  unmarked : a.name ≠ Marker.attributeName
  unbound : ∀ raw, a.classify ≠ .binding raw

/-- What an edit of a tag may plan, where `P` holds of the values that it writes. -/
inductive TagEdit (P : Bytes → Prop) (text : Bytes) (tag : OpenTag) : List Patch → Prop where
  | idle : TagEdit P text tag []
  | insert {name value : Bytes} (hn : P name) (hv : P value) (isName : IsItemName name)
      (unmarked : name ≠ Marker.attributeName) :
      TagEdit P text tag [tag.insertAttribute text (writeAttribute name value)]
  | remove {a : Attribute} (mem : a ∈ tag.attributes text) (editable : a.Editable) :
      TagEdit P text tag [tag.removeAttribute text a]
  | replace {a : Attribute} (mem : a ∈ tag.attributes text) (editable : a.Editable)
      (encoding : Encoding) {value : Bytes} (hv : P value) :
      TagEdit P text tag [a.replaceValue (encoding.format value)]

namespace OpenTag.Sound

variable {text : Bytes} {tag : OpenTag} (sound : tag.Sound text)

include sound

theorem insertAttribute_seamed (addition : Bytes) :
    (tag.insertAttribute text addition).Seamed text := by
  rw [OpenTag.insertAttribute]
  cases h : tag.attribute? text Marker.attributeName with
  | none => exact ⟨sound.trimmedEnd.2, sound.trimmedEnd.2, Nat.le_refl _⟩
  | some a =>
      have stop := (sound.attribute (mem_of_attribute? h)).stop.2.2
      exact ⟨stop, stop, Nat.le_refl _⟩

theorem removeAttribute_seamed {a : Attribute} (mem : a ∈ tag.attributes text) :
    (tag.removeAttribute text a).Seamed text := by
  have inside := sound.attribute mem
  have stop := inside.stop
  have named := inside.named
  refine ⟨inside.start.back, stop.2.2, ?_⟩
  simp only [OpenTag.removeAttribute, Patch.removal]
  omega

theorem replaceValue_seamed {a : Attribute} (mem : a ∈ tag.attributes text) (raw : Bytes) :
    (a.replaceValue raw).Seamed text := by
  have inside := sound.attribute mem
  rw [Attribute.replaceValue]
  cases h : a.value with
  | none => exact ⟨inside.nameEnd, inside.nameEnd, Nat.le_refl _⟩
  | some v =>
      have value := inside.value v h
      exact ⟨value.start, value.stop, Nat.le_add_right _ _⟩

theorem seamed_of_edit {P : Bytes → Prop} {patches : List Patch}
    (edit : TagEdit P text tag patches) : text.Each (fun text q => q.Seamed text) patches := by
  cases edit with
  | idle => trivial
  | insert => exact ⟨sound.insertAttribute_seamed _, trivial⟩
  | remove mem => exact ⟨sound.removeAttribute_seamed mem, trivial⟩
  | replace mem => exact ⟨sound.replaceValue_seamed mem _, trivial⟩

end OpenTag.Sound

theorem Classes.literalOf?_eq_some_iff {form : Form} {a : Attribute} {classes : Bytes} :
    literalOf? form a = some classes ↔
      a.name = form.1.bytes ∧ a.classify = .literal form.2 classes := by
  rw [literalOf?]
  constructor
  · intro h
    split at h
    next named =>
      split at h
      next encoding text classified =>
        split at h
        next same =>
          cases h
          exact ⟨named, by rw [classified, same]⟩
        · cases h
      · cases h
    · cases h
  · rintro ⟨named, classified⟩
    rw [if_pos named, classified]
    exact if_pos rfl

namespace Edit

variable {P : Bytes → Prop} {text id : Bytes} {patches : List Patch}

theorem editable_of_attribute? {tag : OpenTag} {name : Bytes} {a : Attribute}
    (present : tag.attribute? text name = some a) (unmarked : name ≠ Marker.attributeName)
    (unbound : ∀ raw, a.classify ≠ .binding raw) : a.Editable :=
  ⟨by rwa [name_of_attribute? present], unbound⟩

theorem isItemName_of_isAttributeName {name : Bytes} (h : isAttributeName name = true) :
    IsItemName name := by
  rw [isAttributeName, Bool.and_eq_true, Bool.not_eq_true', List.isEmpty_eq_false_iff,
    List.all_eq_true] at h
  refine ⟨h.1, fun c mem => ?_⟩
  have plain := h.2 c mem
  simp_all [Encoding.isPlainByte, isItemNameByte, Attribute.isAttributeNameByte]

theorem setAttribute_edit {name value : Bytes} (hn : P name) (hv : P value)
    (h : setAttribute text id name value = .ok patches) :
    ∃ tag, locateTag? text id = some tag ∧ TagEdit P text tag patches := by
  rw [setAttribute] at h
  split at h
  · cases h
  next unmarked =>
    split at h
    · cases h
    next valid =>
      have isName := isItemName_of_isAttributeName (Bool.of_not_eq_false valid)
      obtain ⟨tag, found, h⟩ := bind_eq_ok.1 h
      refine ⟨tag, findTag_eq_ok.1 found, ?_⟩
      split at h
      next absent =>
        cases h
        exact .insert hn hv isName unmarked
      next a present =>
        have mem := mem_of_attribute? present
        have editable := editable_of_attribute? present unmarked
        split at h
        next literal =>
          cases h
          exact .replace mem (editable (by simp [literal])) _ hv
        next bare =>
          cases h
          exact .replace mem (editable (by simp [bare])) _ hv
        · cases h

theorem removeAttribute_edit {name : Bytes} (h : removeAttribute text id name = .ok patches) :
    ∃ tag, locateTag? text id = some tag ∧ TagEdit P text tag patches := by
  rw [removeAttribute] at h
  split at h
  · cases h
  next unmarked =>
    obtain ⟨tag, found, h⟩ := bind_eq_ok.1 h
    refine ⟨tag, findTag_eq_ok.1 found, ?_⟩
    split at h
    next absent =>
      cases h
      exact .idle
    next a present =>
      split at h
      · cases h
      next unbound =>
        cases h
        exact .remove (mem_of_attribute? present) (editable_of_attribute? present unmarked unbound)

/-- A value that a tag has as a literal, or the empty value of an attribute without one. -/
def HasLiteral (text : Bytes) (tag : OpenTag) (value : Bytes) : Prop :=
  value = [] ∨ ∃ a ∈ tag.attributes text, ∃ encoding, a.classify = .literal encoding value

theorem styleName_ne : styleName ≠ Marker.attributeName := by decide

theorem setStyle_edit {property value : Bytes} (hn : P styleName)
    (new : P (Style.Declaration.property property.trim (declarationValue value)).format)
    (changed : ∀ tag style, locateTag? text id = some tag → HasLiteral text tag style →
      P (Style.format (Style.set property.trim (declarationValue value) (Style.parse style))
        (Style.isClosed style)))
    (h : setStyle text id property value = .ok patches) :
    ∃ tag, locateTag? text id = some tag ∧ TagEdit P text tag patches := by
  simp only [setStyle] at h
  split at h
  · cases h
  · obtain ⟨tag, found, h⟩ := bind_eq_ok.1 h
    have located := findTag_eq_ok.1 found
    refine ⟨tag, located, ?_⟩
    split at h
    next absent =>
      cases h
      exact .insert hn new (by decide) styleName_ne
    next a present =>
      have mem := mem_of_attribute? present
      have editable := editable_of_attribute? present styleName_ne
      split at h
      next encoding style literal =>
        cases h
        exact .replace mem (editable (by simp [literal])) _
          (changed tag style located (.inr ⟨a, mem, encoding, literal⟩))
      next bare =>
        cases h
        exact .replace mem (editable (by simp [bare])) _ (changed tag [] located (.inl rfl))
      next => cases h

theorem removeStyle_edit {property : Bytes}
    (changed : ∀ tag style, locateTag? text id = some tag → HasLiteral text tag style →
      P (Style.format (Style.remove property.trim (Style.parse style)) (Style.isClosed style)))
    (h : removeStyle text id property = .ok patches) :
    ∃ tag, locateTag? text id = some tag ∧ TagEdit P text tag patches := by
  simp only [removeStyle] at h
  obtain ⟨tag, found, h⟩ := bind_eq_ok.1 h
  have located := findTag_eq_ok.1 found
  refine ⟨tag, located, ?_⟩
  split at h
  next absent =>
    cases h
    exact .idle
  next a present =>
    have mem := mem_of_attribute? present
    split at h
    next =>
      cases h
      exact .idle
    next => cases h
    next encoding style literal =>
      have editable := editable_of_attribute? present styleName_ne (by simp [literal])
      split at h
      · cases h
        exact .idle
      · split at h
        · cases h
          exact .remove mem editable
        · cases h
          exact .replace mem editable _
            (changed tag style located (.inr ⟨a, mem, encoding, literal⟩))

theorem className_ne (name : Classes.AttributeName) : name.bytes ≠ Marker.attributeName := by
  cases name with
  | plain => decide
  | component => decide

theorem isItemName_className (name : Classes.AttributeName) : IsItemName name.bytes := by
  cases name with
  | plain => decide
  | component => decide

theorem literalOf?_of_choose? {order : List Classes.Form} {attributes : List Attribute}
    {a : Attribute} {classes : Bytes} (h : Classes.choose? order attributes = some (a, classes)) :
    a ∈ attributes ∧ ∃ form, Classes.literalOf? form a = some classes := by
  obtain ⟨form, _, found⟩ := List.exists_of_findSome?_eq_some h
  obtain ⟨b, mem, read⟩ := List.exists_of_findSome?_eq_some found
  obtain ⟨value, literal, same⟩ := Option.map_eq_some_iff.1 read
  cases same
  exact ⟨mem, form, literal⟩

theorem choose?_literal {order : List Classes.Form} {attributes : List Attribute}
    {a : Attribute} {classes : Bytes} (h : Classes.choose? order attributes = some (a, classes)) :
    a ∈ attributes ∧ ∃ encoding, a.classify = .literal encoding classes := by
  obtain ⟨mem, form, literal⟩ := literalOf?_of_choose? h
  exact ⟨mem, _, (Classes.literalOf?_eq_some_iff.1 literal).2⟩

theorem choose?_editable {order : List Classes.Form} {attributes : List Attribute}
    {a : Attribute} {classes : Bytes} (h : Classes.choose? order attributes = some (a, classes)) :
    a.Editable := by
  obtain ⟨-, form, literal⟩ := literalOf?_of_choose? h
  obtain ⟨named, classified⟩ := Classes.literalOf?_eq_some_iff.1 literal
  exact ⟨by rw [named]; exact className_ne form.1, by simp [classified]⟩

theorem setClassesOf_edit {tag : OpenTag} {classes : Bytes}
    (hn : ∀ name : Classes.AttributeName, P name.bytes) (hv : P classes)
    (h : setClassesOf text id tag classes = .ok patches) : TagEdit P text tag patches := by
  simp only [setClassesOf] at h
  split at h
  next a _ chosen =>
    cases h
    exact .replace (choose?_literal chosen).1 (choose?_editable chosen) _ hv
  next =>
    split at h
    · cases h
    · cases h
      exact .insert (hn _) hv (isItemName_className _) (className_ne _)

theorem setClasses_edit {classes : Bytes} (hn : ∀ name : Classes.AttributeName, P name.bytes)
    (hv : P classes) (h : setClasses text id classes = .ok patches) :
    ∃ tag, locateTag? text id = some tag ∧ TagEdit P text tag patches := by
  obtain ⟨tag, found, h⟩ := bind_eq_ok.1 h
  exact ⟨tag, findTag_eq_ok.1 found, setClassesOf_edit hn hv h⟩

theorem hasLiteral_current {tag : OpenTag} {current : Option Bytes}
    (h : currentClasses text id tag = .ok current) : HasLiteral text tag (current.getD []) := by
  simp only [currentClasses] at h
  split at h
  next classes read =>
    cases h
    obtain ⟨⟨a, value⟩, chosen, rfl⟩ := Option.map_eq_some_iff.1 read
    obtain ⟨mem, encoding, literal⟩ := choose?_literal chosen
    exact .inr ⟨a, mem, encoding, literal⟩
  next =>
    split at h
    · cases h
    · cases h
      exact .inl rfl

theorem addClass_edit {classes : Bytes} (hn : ∀ name : Classes.AttributeName, P name.bytes)
    (joined : ∀ tag current, locateTag? text id = some tag → HasLiteral text tag current →
      P (Bytes.unwords (distinct (current.words ++ classes.words))))
    (h : addClass text id classes = .ok patches) :
    ∃ tag, locateTag? text id = some tag ∧ TagEdit P text tag patches := by
  obtain ⟨tag, found, h⟩ := bind_eq_ok.1 h
  obtain ⟨current, read, h⟩ := bind_eq_ok.1 h
  have located := findTag_eq_ok.1 found
  refine ⟨tag, located, ?_⟩
  dsimp only at h
  split at h
  · cases h
    exact .idle
  · exact setClassesOf_edit hn (joined tag _ located (hasLiteral_current read)) h

theorem removeClass_edit {classes : Bytes} (hn : ∀ name : Classes.AttributeName, P name.bytes)
    (left : ∀ tag current, locateTag? text id = some tag → HasLiteral text tag current →
      P (Bytes.unwords (distinct (current.words.filter fun c => !classes.words.contains c))))
    (h : removeClass text id classes = .ok patches) :
    ∃ tag, locateTag? text id = some tag ∧ TagEdit P text tag patches := by
  obtain ⟨tag, found, h⟩ := bind_eq_ok.1 h
  obtain ⟨current, read, h⟩ := bind_eq_ok.1 h
  have located := findTag_eq_ok.1 found
  refine ⟨tag, located, ?_⟩
  have literal := hasLiteral_current read
  cases current with
  | none =>
      cases h
      exact .idle
  | some current =>
      dsimp only at h
      split at h
      · exact setClassesOf_edit hn (left tag current located literal) h
      · cases h
        exact .idle

end Edit

end MarkupEdit
