import MarkupEdit.Edit.Attribute
import MarkupEdit.Edit.Style
import MarkupEdit.Proofs.Element
import MarkupEdit.Proofs.TagEdits

/-!
Edits of a tag as written depend on the tag alone. Whatever stands around it, the tag has the
same attributes at shifted offsets, so an edit plans the same patches at shifted offsets, or is
refused for the same reason.
-/

namespace MarkupEdit

theorem slice_context {u : Bytes} {b : Nat} (hb : b ≤ u.length) (p s : Bytes) (a : Nat) :
    (p ++ (u ++ s)).slice (p.length + a) (p.length + b) = u.slice a b := by
  rw [Bytes.slice, List.take_length_add_append, List.drop_length_add_append,
    List.take_append_of_le_length hb, Bytes.slice]

theorem slice_front {u : Bytes} {b : Nat} (hb : b ≤ u.length) (s : Bytes) (a : Nat) :
    (u ++ s).slice a b = u.slice a b := by
  rw [Bytes.slice, List.take_append_of_le_length hb, Bytes.slice]

/-- The same change, further along by `k` bytes. -/
def Patch.shift (k : Nat) (q : Patch) : Patch := ⟨k + q.start, k + q.stop, q.replacement⟩

theorem Bytes.Each.imp {R R' : Bytes → Patch → Prop}
    (weaken : ∀ {text q}, R text q → R' text q) {text : Bytes} {patches : List Patch}
    (each : text.Each R patches) : text.Each R' patches := by
  induction patches generalizing text with
  | nil => trivial
  | cons q rest ih => exact ⟨weaken each.1, ih each.2⟩

theorem apply_shift {u : Bytes} {q : Patch} (within : q.Within u) (p s : Bytes) :
    (q.shift p.length).apply (p ++ (u ++ s)) = p ++ (q.apply u ++ s) := by
  have first : q.start ≤ u.length := Nat.le_trans within.le within.inside
  simp only [Patch.apply, Patch.shift, Bytes.splice, List.take_length_add_append,
    List.drop_length_add_append]
  rw [List.take_append_of_le_length first, List.drop_append_of_le_length within.inside]
  simp only [List.append_assoc]

theorem patch_shift {u : Bytes} {patches : List Patch}
    (fits : u.Each (fun text q => q.Within text) patches) (p s : Bytes) :
    (p ++ (u ++ s)).patch (patches.map (Patch.shift p.length)) = p ++ (u.patch patches ++ s) := by
  induction patches generalizing u with
  | nil => rfl
  | cons q rest ih =>
      rw [List.map_cons, patch_cons, apply_shift fits.1, ih fits.2, patch_cons]

def Plan.shift (k : Nat) (plan : Plan) : Plan := plan.map (List.map (Patch.shift k))

/-- A plan made for a part of a text changes only that part. -/
theorem map_patch_shift {u : Bytes} {plan : Plan}
    (fits : ∀ patches, plan = .ok patches → u.Each (fun text q => q.Within text) patches)
    (p s : Bytes) :
    (plan.shift p.length).map (p ++ (u ++ s)).patch =
      (plan.map u.patch).map (p ++ · ++ s) := by
  cases plan with
  | error refusal => rfl
  | ok patches =>
      simp only [Plan.shift, Except.map, patch_shift (fits patches rfl), List.append_assoc]

def RawValue.shift (k : Nat) (v : RawValue) : RawValue := ⟨k + v.start, v.text⟩

def Attribute.shift (k : Nat) (a : Attribute) : Attribute :=
  ⟨k + a.start, a.name, a.value.map (RawValue.shift k)⟩

namespace Attribute

variable (k : Nat) (a : Attribute)

theorem nameEnd_shift : (a.shift k).nameEnd = k + a.nameEnd := by
  simp only [nameEnd, shift, Nat.add_assoc]

theorem stop_shift : (a.shift k).stop = k + a.stop := by
  rw [stop, stop]
  cases h : a.value with
  | none => simp only [shift, h, Option.map_none, ← nameEnd_shift]
  | some v => simp only [shift, h, Option.map_some, RawValue.shift, Nat.add_assoc]

theorem classify_shift : (a.shift k).classify = a.classify := by
  have raw : (a.shift k).raw = a.raw := by
    simp only [Attribute.raw, shift, Option.map_map]
    rfl
  rw [classify, classify, raw]

theorem replaceValue_shift (raw : Bytes) :
    (a.shift k).replaceValue raw = (a.replaceValue raw).shift k := by
  rw [replaceValue, replaceValue]
  cases h : a.value with
  | none =>
      simp only [shift, h, Option.map_none, ← nameEnd_shift, Patch.insertion, Patch.shift]
  | some v =>
      simp only [shift, h, Option.map_some, RawValue.shift, Patch.shift, Nat.add_assoc]

end Attribute

theorem attribute?_shift (k i : Nat) (item : Item) :
    item.attribute? (k + i) = (item.attribute? i).map (Attribute.shift k) := by
  cases item with
  | spread body => rfl
  | flag name => rfl
  | valued name before after value =>
      simp only [Item.attribute?, Option.map_some, Attribute.shift, RawValue.shift,
        Nat.add_assoc]

theorem itemAttributes_shift (k i : Nat) (items : List SpacedItem) :
    itemAttributes (k + i) items = (itemAttributes i items).map (Attribute.shift k) := by
  induction items generalizing i with
  | nil => rfl
  | cons x rest ih =>
      obtain ⟨gap, item⟩ := x
      rw [itemAttributes, itemAttributes, List.map_append, ← ih, Nat.add_assoc k i,
        attribute?_shift, Nat.add_assoc k]
      cases item.attribute? (i + gap.length) with
      | none => rfl
      | some a => rfl

namespace TagText

variable (tag : TagText)

theorem written_shift (k : Nat) : tag.written k = (tag.written 0).map (Attribute.shift k) := by
  rw [written, written, ← itemAttributes_shift]
  congr 1
  omega

theorem sound_reading (s : Bytes) : (tag.reading 0).Sound (tag.text ++ s) :=
  sound_of_openTag? (i := 0) (tag.openTag?_in [] s)

theorem attributes_first (s : Bytes) :
    (tag.reading 0).attributes (tag.text ++ s) = tag.written 0 :=
  tag.attributes_in [] s

theorem bodyEnd_le : (tag.reading 0).bodyEnd ≤ tag.text.length := by
  have stop := tag.stop_reading 0
  rw [OpenTag.stop, Nat.zero_add] at stop
  omega

theorem attribute?_local (p s s' name : Bytes) :
    (tag.reading p.length).attribute? (p ++ (tag.text ++ s)) name =
      ((tag.reading 0).attribute? (tag.text ++ s') name).map (Attribute.shift p.length) := by
  rw [OpenTag.attribute?, OpenTag.attribute?, tag.attributes_in, tag.attributes_first,
    tag.written_shift p.length, List.find?_map]
  rfl

theorem slice_local (p s s' : Bytes) {a b : Nat} (hb : b ≤ tag.text.length) :
    (p ++ (tag.text ++ s)).slice (p.length + a) (p.length + b) = (tag.text ++ s').slice a b := by
  rw [slice_context hb, slice_front hb]

theorem nameEnd_reading (k : Nat) : (tag.reading k).nameEnd = k + (tag.reading 0).nameEnd := by
  simp only [OpenTag.nameEnd, reading]
  omega

theorem bodyEnd_reading (k : Nat) : (tag.reading k).bodyEnd = k + (tag.reading 0).bodyEnd := by
  simp only [reading]
  omega

theorem trimmedEnd_local (p s s' : Bytes) :
    (tag.reading p.length).trimmedEnd (p ++ (tag.text ++ s)) =
      p.length + (tag.reading 0).trimmedEnd (tag.text ++ s') := by
  have sound := tag.sound_reading s'
  have short := length_blanks_back (tag.text ++ s') (i := (tag.reading 0).nameEnd)
    (Nat.le_of_lt sound.inside)
  rw [OpenTag.trimmedEnd, OpenTag.trimmedEnd, tag.nameEnd_reading, tag.bodyEnd_reading,
    tag.slice_local p s s' tag.bodyEnd_le, Nat.add_sub_assoc]
  omega

theorem insertAttribute_local (p s s' addition : Bytes) :
    (tag.reading p.length).insertAttribute (p ++ (tag.text ++ s)) addition =
      ((tag.reading 0).insertAttribute (tag.text ++ s') addition).shift p.length := by
  rw [OpenTag.insertAttribute, OpenTag.insertAttribute, tag.attribute?_local p s s']
  cases (tag.reading 0).attribute? (tag.text ++ s') Marker.attributeName with
  | none =>
      simp only [Option.map_none, tag.trimmedEnd_local p s s', Patch.insertion, Patch.shift]
  | some a =>
      simp only [Option.map_some, Attribute.stop_shift, Patch.insertion, Patch.shift]

theorem removeAttribute_local (p s s' : Bytes) {a : Attribute}
    (mem : a ∈ (tag.reading 0).attributes (tag.text ++ s')) :
    (tag.reading p.length).removeAttribute (p ++ (tag.text ++ s)) (a.shift p.length) =
      ((tag.reading 0).removeAttribute (tag.text ++ s') a).shift p.length := by
  have inside := (tag.sound_reading s').attribute mem
  have bound : a.start ≤ tag.text.length := by
    have := inside.named
    have := inside.within
    have := tag.bodyEnd_le
    omega
  have short := length_blanks_back (tag.text ++ s') (i := (tag.reading 0).nameEnd)
    inside.start.le
  have start : (a.shift p.length).start = p.length + a.start := rfl
  rw [OpenTag.removeAttribute, OpenTag.removeAttribute, start, tag.nameEnd_reading,
    tag.slice_local p s s' bound, Attribute.stop_shift, Nat.add_sub_assoc (by omega)]
  rfl

end TagText

namespace Edit

variable {tag : TagText} {id : Bytes} {p s s' : Bytes}
  (here : findTag (p ++ (tag.text ++ s)) id = .ok (tag.reading p.length))
  (alone : findTag (tag.text ++ s') id = .ok (tag.reading 0))

include here alone

theorem setAttribute_local (name value : Bytes) :
    setAttribute (p ++ (tag.text ++ s)) id name value =
      (setAttribute (tag.text ++ s') id name value).shift p.length := by
  rw [setAttribute, setAttribute]
  split
  · rfl
  · split
    · rfl
    · rw [here, alone]
      simp only [bind, Except.bind, tag.attribute?_local p s s']
      cases (tag.reading 0).attribute? (tag.text ++ s') name with
      | none =>
          simp only [Option.map_none, tag.insertAttribute_local p s s']
          rfl
      | some a =>
          simp only [Option.map_some, Attribute.classify_shift, Attribute.replaceValue_shift]
          cases a.classify with
          | literal encoding text => rfl
          | binding raw => rfl
          | bare => rfl

theorem removeAttribute_local (name : Bytes) :
    removeAttribute (p ++ (tag.text ++ s)) id name =
      (removeAttribute (tag.text ++ s') id name).shift p.length := by
  rw [removeAttribute, removeAttribute]
  split
  · rfl
  · rw [here, alone]
    simp only [bind, Except.bind, tag.attribute?_local p s s']
    cases found : (tag.reading 0).attribute? (tag.text ++ s') name with
    | none => rfl
    | some a =>
        have removal := tag.removeAttribute_local p s s' (mem_of_attribute? found)
        simp only [Option.map_some, Attribute.classify_shift, removal]
        cases a.classify with
        | literal encoding text => rfl
        | binding raw => rfl
        | bare => rfl

theorem setStyle_local (property value : Bytes) :
    setStyle (p ++ (tag.text ++ s)) id property value =
      (setStyle (tag.text ++ s') id property value).shift p.length := by
  simp only [setStyle]
  split
  · rfl
  · rw [here, alone]
    simp only [bind, Except.bind, tag.attribute?_local p s s']
    cases (tag.reading 0).attribute? (tag.text ++ s') styleName with
    | none =>
        simp only [Option.map_none, tag.insertAttribute_local p s s']
        rfl
    | some a =>
        simp only [Option.map_some, Attribute.classify_shift, Attribute.replaceValue_shift]
        cases a.classify with
        | literal encoding text => rfl
        | binding raw => rfl
        | bare => rfl

theorem removeStyle_local (property : Bytes) :
    removeStyle (p ++ (tag.text ++ s)) id property =
      (removeStyle (tag.text ++ s') id property).shift p.length := by
  simp only [removeStyle]
  rw [here, alone]
  simp only [bind, Except.bind, tag.attribute?_local p s s']
  cases found : (tag.reading 0).attribute? (tag.text ++ s') styleName with
  | none => rfl
  | some a =>
      have removal := tag.removeAttribute_local p s s' (mem_of_attribute? found)
      simp only [Option.map_some, Attribute.classify_shift, Attribute.replaceValue_shift, removal]
      cases a.classify with
      | literal encoding text =>
          dsimp only
          split
          · rfl
          · split
            · rfl
            · rfl
      | binding raw => rfl
      | bare => rfl

end Edit

end MarkupEdit
