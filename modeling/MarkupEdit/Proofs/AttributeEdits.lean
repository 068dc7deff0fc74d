import MarkupEdit.Mutation
import MarkupEdit.Proofs.AttributeOrder

/-!
What the edits of attributes, classes and styles change. Each replaces one range of the text, in
the body of the opening tag that was found, and the range belongs to at most one attribute, which
is neither a marker nor bound to an expression. Every other part of the document is kept.
-/

namespace MarkupEdit

namespace Patch

/-- Nothing from offset `i` up to offset `j` is replaced. -/
def Spares (q : Patch) (i j : Nat) : Prop := j ≤ q.start ∨ q.stop ≤ i

/-- Where a byte stands after a patch, when it stood at offset `i` and is not replaced. -/
def moved (q : Patch) (i : Nat) : Nat :=
  if i < q.start then i else i - q.stop + (q.start + q.replacement.length)

/-- The bytes from offset `i` up to offset `j` are the same after a patch. -/
def Keeps (text : Bytes) (q : Patch) (i j : Nat) : Prop :=
  (q.apply text).slice (q.moved i) (q.moved i + (j - i)) = text.slice i j

theorem apply_eq (text : Bytes) (q : Patch) :
    q.apply text = text.take q.start ++ q.replacement ++ text.drop q.stop := by
  rw [apply, Bytes.splice, List.append_assoc]

variable {text : Bytes} {q : Patch} (within : q.Within text)

include within

theorem take_apply : (q.apply text).take q.start = text.take q.start :=
  Bytes.take_splice (Nat.le_trans within.le within.inside)

theorem drop_apply (n : Nat) :
    (q.apply text).drop (n + (q.start + q.replacement.length)) = text.drop (q.stop + n) := by
  rw [Nat.add_comm n, ← List.drop_drop, apply,
    Bytes.drop_splice (Nat.le_trans within.le within.inside), List.drop_drop]

theorem Spares.keeps {i j : Nat} (spares : q.Spares i j) (le : i ≤ j) : q.Keeps text i j := by
  by_cases same : i = j
  · rw [Keeps, same]
    simp [Bytes.slice]
  · cases spares with
    | inl before =>
        have front (t : Bytes) : t.slice i j = Bytes.slice (t.take q.start) i j := by
          rw [Bytes.slice, Bytes.slice, List.take_take, Nat.min_eq_left before]
        rw [Keeps, moved, if_pos (by omega), Nat.add_sub_cancel' le, front, take_apply within,
          ← front]
    | inr behind =>
        have le := within.le
        rw [Keeps, moved, if_neg (by omega), Bytes.slice, Bytes.slice, List.drop_take,
          List.drop_take, drop_apply within, Nat.add_sub_cancel' behind, Nat.add_sub_cancel_left]

end Patch

/-- The range that an edit of a tag replaces, and the attribute that it belongs to. -/
inductive EditRange (text : Bytes) (tag : OpenTag) : Option Attribute → Nat → Nat → Prop where
  | behindMarker {a : Attribute} (mem : a ∈ tag.attributes text)
      (marker : a.name = Marker.attributeName) : EditRange text tag none a.stop a.stop
  | behindName {a : Attribute} (mem : a ∈ tag.attributes text) (bare : a.value = none) :
      EditRange text tag (some a) a.nameEnd a.nameEnd
  | value {a : Attribute} (mem : a ∈ tag.attributes text) {v : RawValue}
      (valued : a.value = some v) {encoding : Encoding} {content : Bytes}
      (literal : a.classify = .literal encoding content) :
      EditRange text tag (some a) v.start (v.start + v.text.length)
  /-- An attribute, and all the white space in front of it. -/
  | whole {a : Attribute} (mem : a ∈ tag.attributes text) {gap : Nat} (le : gap ≤ a.start)
      (blank : ∀ k, gap ≤ k → k < a.start → ∃ c, text[k]? = some c ∧ Byte.isBlank c = true)
      (first : gap = tag.nameEnd ∨
        ∃ k c, gap = k + 1 ∧ text[k]? = some c ∧ Byte.isBlank c = false) :
      EditRange text tag (some a) gap a.stop

/-- A patch of one attribute of a tag, or of a place between attributes. -/
structure Patch.OfAttribute (text : Bytes) (tag : OpenTag) (q : Patch)
    (edited : Option Attribute) : Prop where
  range : EditRange text tag edited q.start q.stop
  editable : ∀ a, edited = some a → a.Editable
  behindName : tag.nameEnd ≤ q.start
  le : q.start ≤ q.stop
  inBody : q.stop ≤ tag.bodyEnd

namespace OpenTag.Sound

variable {text : Bytes} {tag : OpenTag} (sound : tag.Sound text)

include sound

theorem ofAttribute_remove {a : Attribute} (mem : a ∈ tag.attributes text)
    (editable : a.Editable) : (tag.removeAttribute text a).OfAttribute text tag (some a) := by
  have here := sound.attribute mem
  have stop := here.stop
  have named := here.named
  have first := here.first
  have inside : a.start ≤ text.length := here.start.le
  have short := length_blanks_back text (i := tag.nameEnd) inside
  exact {
    range := .whole mem (Nat.sub_le _ _) (fun k => blank_back inside) (back_stop first inside)
    editable := fun b same => Option.some.inj same ▸ editable
    behindName := by
      simp only [OpenTag.removeAttribute, Patch.removal]
      omega
    le := (sound.removeAttribute_seamed mem).le
    inBody := stop.2.1 }

theorem ofAttribute_replace {a : Attribute} (mem : a ∈ tag.attributes text)
    (editable : a.Editable) (raw : Bytes) :
    (a.replaceValue raw).OfAttribute text tag (some a) := by
  have here := sound.attribute mem
  have first := here.first
  have named := here.named
  have le := (sound.replaceValue_seamed mem raw).le
  rw [Attribute.replaceValue] at le ⊢
  cases valued : a.value with
  | none =>
      exact {
        range := .behindName mem valued
        editable := fun b same => Option.some.inj same ▸ editable
        behindName := by
          simp only [Patch.insertion]
          omega
        le := Nat.le_refl _
        inBody := here.within }
  | some v =>
      have value := here.value v valued
      have behind := value.first
      cases classified : a.classify with
      | literal encoding content =>
          exact {
            range := .value mem valued classified
            editable := fun b same => Option.some.inj same ▸ editable
            behindName := by
              dsimp only
              omega
            le := Nat.le_add_right _ _
            inBody := value.within }
      | binding raw => exact absurd classified (editable.unbound raw)
      | bare =>
          rw [Attribute.classify, Attribute.raw, valued, Option.map_some,
            AttributeValue.classify] at classified
          split at classified
          · cases classified
          · cases classified

/-- A patch of one attribute replaces nothing of another one. -/
theorem spares_attribute {q : Patch} {edited : Option Attribute}
    (patch : q.OfAttribute text tag edited) {b : Attribute} (hb : b ∈ tag.attributes text)
    (ne : edited ≠ some b) : q.Spares b.start b.stop := by
  have apart {a : Attribute} (ha : a ∈ tag.attributes text) (ne : a ≠ b) :
      a.stop ≤ b.start ∨ b.stop ≤ a.start := OpenTag.attributes_apart ha hb ne
  rw [Patch.Spares]
  have range := patch.range
  generalize q.start = start at range ⊢
  generalize q.stop = stop at range ⊢
  cases range with
  | @behindMarker a mem marker =>
      by_cases same : a = b
      · rw [same]
        exact .inl (Nat.le_refl _)
      · have named := (sound.attribute mem).named
        have bounds := (sound.attribute mem).stop
        have := apart mem same
        omega
  | @behindName a mem bare =>
      have named := (sound.attribute mem).named
      have bounds := (sound.attribute mem).stop
      have := apart mem fun same => ne (congrArg some same)
      omega
  | @value a mem v valued encoding content literal =>
      have named := (sound.attribute mem).named
      have behind := ((sound.attribute mem).value v valued).first
      have bound : a.stop = v.start + v.text.length := by rw [Attribute.stop, valued]
      have := apart mem fun same => ne (congrArg some same)
      omega
  | @whole a mem gap le blank first =>
      cases apart mem fun same => ne (congrArg some same) with
      | inl behind => exact .inr behind
      | inr before => exact .inl (sound.gap_before mem hb before blank)

end OpenTag.Sound

/-- What an edit of a tag leaves: all bytes but those of a range that belongs to at most one
attribute. -/
structure LeavesOthers (text : Bytes) (tag : OpenTag) (q : Patch) (edited : Option Attribute) :
    Prop where
  ofAttribute : q.OfAttribute text tag edited
  /-- The tag name and everything in front of it, and everything behind the body of the tag. -/
  outside : ∀ i j, i ≤ j → j ≤ tag.nameEnd ∨ tag.bodyEnd ≤ i → q.Keeps text i j
  others : ∀ a ∈ tag.attributes text, edited ≠ some a → q.Keeps text a.start a.stop
  markers : ∀ a ∈ tag.attributes text, a.name = Marker.attributeName →
    q.Keeps text a.start a.stop
  bindings : ∀ a ∈ tag.attributes text, ∀ raw, a.classify = .binding raw →
    q.Keeps text a.start a.stop

theorem OpenTag.Sound.leavesOthers {text : Bytes} {tag : OpenTag} (sound : tag.Sound text)
    {q : Patch} {edited : Option Attribute} (patch : q.OfAttribute text tag edited) :
    LeavesOthers text tag q edited := by
  have within : q.Within text :=
    ⟨patch.le, Nat.le_trans patch.inBody (Nat.le_of_lt sound.inside)⟩
  have others : ∀ a ∈ tag.attributes text, edited ≠ some a → q.Keeps text a.start a.stop := by
    intro a mem ne
    have named := (sound.attribute mem).named
    have stop := (sound.attribute mem).stop.1
    exact (sound.spares_attribute patch mem ne).keeps within (by omega)
  refine ⟨patch, ?_, others, ?_, ?_⟩
  · intro i j le outside
    have first := patch.behindName
    have last := patch.inBody
    have spares : q.Spares i j := by
      rw [Patch.Spares]
      omega
    exact spares.keeps within le
  · exact fun a mem marker => others a mem fun same => (patch.editable a same).unmarked marker
  · exact fun a mem raw binding =>
      others a mem fun same => (patch.editable a same).unbound raw binding

/-- What an edit of the located tag plans is nothing, or one patch of one attribute. -/
theorem TagEdit.leavesOthers {P : Bytes → Prop} {text id : Bytes} {tag : OpenTag}
    (located : locateTag? text id = some tag) {patches : List Patch}
    (edit : TagEdit P text tag patches) :
    patches = [] ∨ ∃ q edited, patches = [q] ∧ LeavesOthers text tag q edited := by
  have sound := sound_of_locateTag? located
  cases edit with
  | idle => exact .inl rfl
  | @insert name value hn hv =>
      obtain ⟨a, marker⟩ := marker_of_locateTag? located
      have mem := mem_of_attribute? marker
      have here := sound.attribute mem
      have first := here.first
      have named := here.named
      have stop := here.stop
      refine .inr ⟨_, none, rfl, sound.leavesOthers ?_⟩
      rw [OpenTag.insertAttribute, marker]
      exact {
        range := .behindMarker mem (name_of_attribute? marker)
        editable := fun b same => by cases same
        behindName := by
          simp only [Patch.insertion]
          omega
        le := Nat.le_refl _
        inBody := stop.2.1 }
  | @remove a mem editable =>
      exact .inr ⟨_, some a, rfl, sound.leavesOthers (sound.ofAttribute_remove mem editable)⟩
  | @replace a mem editable encoding value hv =>
      exact .inr ⟨_, some a, rfl,
        sound.leavesOthers (sound.ofAttribute_replace mem editable _)⟩

/-- The mutations of the classes, the attributes and the inline style of an element. -/
def Mutation.isOfAttributes : Mutation → Bool
  | .updateClasses _ _ | .addClass _ _ | .removeClass _ _ | .setAttribute _ _ _
  | .removeAttribute _ _ | .setInlineStyle _ _ _ | .removeInlineStyle _ _ => true
  | _ => false

theorem Mutation.tagEdit_of_plan {m : Mutation} (ofAttributes : m.isOfAttributes = true)
    {text : Bytes} {patches : List Patch} (h : m.plan text = .ok patches) :
    ∃ tag, locateTag? text (utf8 m.elementId) = some tag ∧
      TagEdit (fun _ => True) text tag patches := by
  cases m with
  | updateClasses id classes => exact Edit.setClasses_edit (fun _ => trivial) trivial h
  | addClass id classes => exact Edit.addClass_edit (fun _ => trivial) (fun _ _ _ _ => trivial) h
  | removeClass id classes =>
      exact Edit.removeClass_edit (fun _ => trivial) (fun _ _ _ _ => trivial) h
  | setAttribute id name value => exact Edit.setAttribute_edit trivial trivial h
  | removeAttribute id name => exact Edit.removeAttribute_edit h
  | setInlineStyle id property value =>
      exact Edit.setStyle_edit trivial trivial (fun _ _ _ _ => trivial) h
  | removeInlineStyle id property => exact Edit.removeStyle_edit (fun _ _ _ _ => trivial) h
  | _ => cases ofAttributes

theorem Mutation.apply_eq_ok {m : Mutation} {text new : Bytes} :
    m.apply text = .ok new ↔ ∃ patches, m.plan text = .ok patches ∧ text.patch patches = new :=
  map_eq_ok

/-- The mark that ends a tag, as written. -/
def OpenTag.closing (tag : OpenTag) : Bytes := utf8 (if tag.slashed then "/>" else ">")

theorem cons_prefix_drop {text l : Bytes} {c : UInt8} {i : Nat} (stands : text[i]? = some c)
    (later : l <+: text.drop (i + 1)) : c :: l <+: text.drop i := by
  obtain ⟨inside, rfl⟩ := List.getElem?_eq_some_iff.1 stands
  rw [List.drop_eq_getElem_cons inside]
  exact List.cons_prefix_cons.2 ⟨rfl, later⟩

theorem closing_of_openTag? {text : Bytes} {i : Nat} {tag : OpenTag}
    (h : Units.openTag? text i = some tag) : tag.closing <+: text.drop tag.bodyEnd := by
  have mark := mark_of_openTag? h
  obtain ⟨t, rest, opened⟩ := Units.openTag?_eq_some_iff.1 h
  rw [← (drop_eq_cons rest).2.1] at opened
  obtain ⟨k, stop, last⟩ := (Scan.openTag?_endsIn opened).2.stands
  rw [OpenTag.stop] at stop
  rw [OpenTag.closing]
  cases slashed : tag.slashed with
  | false =>
      rw [slashed] at mark
      exact cons_prefix_drop mark List.nil_prefix
  | true =>
      rw [slashed] at mark stop
      have next : k = tag.bodyEnd + 1 := (Nat.succ.inj stop).symm
      rw [next] at last
      exact cons_prefix_drop mark (cons_prefix_drop last List.nil_prefix)

/-- An accepted mutation of the classes, the attributes or the inline style of an element leaves
the text as it is, or replaces one range in the body of the element's opening tag: behind a
marker, behind the name of an attribute without value, the value of a literal attribute, or an
attribute with the white space in front of it. The tag name, what stands outside the tag, the
markers, the bound attributes and all other attributes keep their bytes. -/
theorem Mutation.edits_one_attribute {m : Mutation} (ofAttributes : m.isOfAttributes = true)
    {text new : Bytes} (h : m.apply text = .ok new) :
    new = text ∨ ∃ tag q edited, locateTag? text (utf8 m.elementId) = some tag ∧
      tag.closing <+: text.drop tag.bodyEnd ∧
      new = text.take q.start ++ q.replacement ++ text.drop q.stop ∧
      LeavesOthers text tag q edited := by
  obtain ⟨patches, planned, rfl⟩ := Mutation.apply_eq_ok.1 h
  obtain ⟨tag, located, edit⟩ := Mutation.tagEdit_of_plan ofAttributes planned
  obtain ⟨m, mem, k, owns, first⟩ := locateTag?_eq_some_iff.1 located
  cases edit.leavesOthers located with
  | inl idle => exact .inl (by rw [idle]; rfl)
  | inr edits =>
      obtain ⟨q, edited, rfl, leaves⟩ := edits
      exact .inr ⟨tag, q, edited, located, closing_of_openTag? owns.opens, q.apply_eq text, leaves⟩

theorem title_edited_in_broken_text :
    let text := utf8 "\x7b'<p title=x class=\x7bc\x7d data-eid=\"a\" id=> <"
    let new := utf8 "\x7b'<p title=\"y z\" class=\x7bc\x7d data-eid=\"a\" id=> <"
    (Mutation.setAttribute "a" "title" "y z").apply text = .ok new ∧
      ∃ tag q edited, locateTag? text (utf8 "a") = some tag ∧
        tag.closing <+: text.drop tag.bodyEnd ∧
        new = text.take q.start ++ q.replacement ++ text.drop q.stop ∧
        LeavesOthers text tag q edited := by
  intro text new
  have applied : (Mutation.setAttribute "a" "title" "y z").apply text = .ok new := by
    decide +kernel
  cases Mutation.edits_one_attribute rfl applied with
  | inl same =>
      have changed : new ≠ text := by decide
      exact absurd same changed
  | inr edit => exact ⟨applied, edit⟩

end MarkupEdit
