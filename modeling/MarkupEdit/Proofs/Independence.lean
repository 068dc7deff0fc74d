import MarkupEdit.Mutation
import MarkupEdit.Proofs.ContentLocality

/-!
Edits of disjoint elements are independent. An edit that stays inside an element does to it in a
document what it does to the element alone, so neither the acceptance nor the result of one such
edit depends on whether another one, of an element elsewhere, was made before it.
-/

namespace MarkupEdit

/-- The mutations that change an element and nothing around it. -/
def Mutation.isInner : Mutation → Bool
  | .replaceElement _ _ | .updateText _ _ _ | .setAttribute _ _ _ | .removeAttribute _ _
  | .setInlineStyle _ _ _ | .removeInlineStyle _ _ => true
  | _ => false

/-- What an inner mutation plans lies in the text. -/
theorem Mutation.plan_within {m : Mutation} (inner : m.isInner = true) {text : Bytes}
    {patches : List Patch} (h : m.plan text = .ok patches) :
    text.Each (fun text q => q.Within text) patches := by
  have inTag {id : Bytes}
      (edit : ∃ tag, locateTag? text id = some tag ∧
        TagEdit (fun _ => True) text tag patches) :
      text.Each (fun text q => q.Within text) patches := by
    obtain ⟨tag, located, edit⟩ := edit
    exact ((sound_of_locateTag? located).seamed_of_edit edit).imp Patch.Seamed.toWithin
  cases m with
  | replaceElement id markup =>
      obtain ⟨loc, located, rfl⟩ := Edit.replaceElement_edit h
      have sound := sound_of_locate? located
      have opened := sound.opened
      have within := sound.within
      exact ⟨⟨by dsimp only; omega, sound.stop.le⟩, trivial⟩
  | updateText id text old => exact setText_within h
  | setAttribute id name value => exact inTag (Edit.setAttribute_edit trivial trivial h)
  | removeAttribute id name => exact inTag (Edit.removeAttribute_edit h)
  | setInlineStyle id property value =>
      exact inTag (Edit.setStyle_edit trivial trivial (fun _ _ _ _ => trivial) h)
  | removeInlineStyle id property =>
      exact inTag (Edit.removeStyle_edit (fun _ _ _ _ => trivial) h)
  | _ => cases inner

section

variable {e : ElementText} {m : Mutation} (place : MarkerPlace e.tag (utf8 m.elementId))
  (clear : Byte.less ∉ place.lead)

include place clear

theorem plan_local (inner : m.isInner = true) {p s : Bytes}
    (once : Bytes.times (Marker.ofId (utf8 m.elementId)) (p ++ (e.text ++ s)) = 1) :
    m.plan (p ++ (e.text ++ s)) = (m.plan e.text).shift p.length := by
  obtain ⟨tagHere, here⟩ := found_in_context place clear once
  have onceAlone := times_alone place once
  have whole : e.text = [] ++ (e.text ++ []) := by simp
  rw [whole] at onceAlone
  obtain ⟨tagAlone, alone⟩ := found_in_context place clear onceAlone
  rw [← whole] at tagAlone alone
  have split : p ++ (e.text ++ s) = p ++ (e.tag.text ++ (e.tail ++ s)) := by
    rw [ElementText.text, List.append_assoc]
  cases m with
  | replaceElement id markup => exact Edit.replaceElement_local here alone (utf8 markup)
  | updateText id text old => exact Edit.setText_local here alone (utf8 text) (old.map utf8)
  | setAttribute id name value =>
      rw [split] at tagHere
      exact split ▸ Edit.setAttribute_local tagHere tagAlone (utf8 name) (utf8 value)
  | removeAttribute id name =>
      rw [split] at tagHere
      exact split ▸ Edit.removeAttribute_local tagHere tagAlone (utf8 name)
  | setInlineStyle id property value =>
      rw [split] at tagHere
      exact split ▸ Edit.setStyle_local tagHere tagAlone (utf8 property) (utf8 value)
  | removeInlineStyle id property =>
      rw [split] at tagHere
      exact split ▸ Edit.removeStyle_local tagHere tagAlone (utf8 property)
  | _ => cases inner

/-- What an inner mutation does to an element in a text is what it does to the element alone. -/
theorem apply_local (inner : m.isInner = true) {p s : Bytes}
    (once : Bytes.times (Marker.ofId (utf8 m.elementId)) (p ++ (e.text ++ s)) = 1) :
    m.apply (p ++ (e.text ++ s)) = (m.apply e.text).map (p ++ · ++ s) := by
  rw [Mutation.apply, Mutation.apply, plan_local place clear inner once]
  exact map_patch_shift (fun patches h => Mutation.plan_within inner h) p s

end

/-- An inner mutation of one element and an inner mutation of another one behind it, in a text
where each marker stands once and where each mutation leaves the marker of the other. Either one
is accepted after the other exactly if it is accepted before, and is refused for the same reason
otherwise; when both are accepted, the two orders give the same text, in which each element is as
its own mutation left it. -/
theorem disjoint_edits_commute {ea eb : ElementText} {ma mb : Mutation}
    (innerA : ma.isInner = true) (innerB : mb.isInner = true)
    (placeA : MarkerPlace ea.tag (utf8 ma.elementId)) (clearA : Byte.less ∉ placeA.lead)
    (placeB : MarkerPlace eb.tag (utf8 mb.elementId)) (clearB : Byte.less ∉ placeB.lead)
    (p q s : Bytes)
    (onceA : Bytes.times (Marker.ofId (utf8 ma.elementId))
      (p ++ ea.text ++ q ++ eb.text ++ s) = 1)
    (onceB : Bytes.times (Marker.ofId (utf8 mb.elementId))
      (p ++ ea.text ++ q ++ eb.text ++ s) = 1)
    (keepsB : ∀ new, ma.apply (p ++ ea.text ++ q ++ eb.text ++ s) = .ok new →
      Bytes.times (Marker.ofId (utf8 mb.elementId)) new = 1)
    (keepsA : ∀ new, mb.apply (p ++ ea.text ++ q ++ eb.text ++ s) = .ok new →
      Bytes.times (Marker.ofId (utf8 ma.elementId)) new = 1) :
    ∃ ra rb : Except Refusal Bytes,
      ma.apply (p ++ ea.text ++ q ++ eb.text ++ s) =
        ra.map (fun a => p ++ a ++ q ++ eb.text ++ s) ∧
      mb.apply (p ++ ea.text ++ q ++ eb.text ++ s) =
        rb.map (fun b => p ++ ea.text ++ q ++ b ++ s) ∧
      (∀ a, ra = .ok a → mb.apply (p ++ a ++ q ++ eb.text ++ s) =
        rb.map (fun b => p ++ a ++ q ++ b ++ s)) ∧
      (∀ b, rb = .ok b → ma.apply (p ++ ea.text ++ q ++ b ++ s) =
        ra.map (fun a => p ++ a ++ q ++ b ++ s)) ∧
      ∀ a b, ra = .ok a → rb = .ok b →
        (ma.apply (p ++ ea.text ++ q ++ eb.text ++ s)).bind mb.apply =
            .ok (p ++ a ++ q ++ b ++ s) ∧
        (mb.apply (p ++ ea.text ++ q ++ eb.text ++ s)).bind ma.apply =
            .ok (p ++ a ++ q ++ b ++ s) := by
  -- Each element stands between its own surroundings, which may be those that the other left.
  have around (a b : Bytes) : p ++ a ++ q ++ b ++ s = p ++ (a ++ (q ++ (b ++ s))) ∧
      p ++ a ++ q ++ b ++ s = (p ++ (a ++ q)) ++ (b ++ s) := by
    simp only [List.append_assoc, and_self]
  have applyA (b : Bytes) (once : Bytes.times (Marker.ofId (utf8 ma.elementId))
      (p ++ ea.text ++ q ++ b ++ s) = 1) :
      ma.apply (p ++ ea.text ++ q ++ b ++ s) =
        (ma.apply ea.text).map fun a => p ++ a ++ q ++ b ++ s := by
    rw [(around ea.text b).1] at once ⊢
    rw [apply_local placeA clearA innerA once]
    congr 1
    funext a
    rw [(around a b).1, List.append_assoc]
  have applyB (a : Bytes) (once : Bytes.times (Marker.ofId (utf8 mb.elementId))
      (p ++ a ++ q ++ eb.text ++ s) = 1) :
      mb.apply (p ++ a ++ q ++ eb.text ++ s) =
        (mb.apply eb.text).map fun b => p ++ a ++ q ++ b ++ s := by
    rw [(around a eb.text).2] at once ⊢
    rw [apply_local placeB clearB innerB once]
    congr 1
    funext b
    rw [(around a b).2, List.append_assoc]
  have firstA := applyA eb.text onceA
  have firstB := applyB ea.text onceB
  have afterA (a : Bytes) (ha : ma.apply ea.text = .ok a) :
      mb.apply (p ++ a ++ q ++ eb.text ++ s) =
        (mb.apply eb.text).map fun b => p ++ a ++ q ++ b ++ s := by
    apply applyB
    apply keepsB
    rw [firstA, ha]
    rfl
  have afterB (b : Bytes) (hb : mb.apply eb.text = .ok b) :
      ma.apply (p ++ ea.text ++ q ++ b ++ s) =
        (ma.apply ea.text).map fun a => p ++ a ++ q ++ b ++ s := by
    apply applyA
    apply keepsA
    rw [firstB, hb]
    rfl
  refine ⟨ma.apply ea.text, mb.apply eb.text, firstA, firstB, afterA, afterB, ?_⟩
  intro a b ha hb
  constructor
  · rw [firstA, ha]
    change mb.apply _ = _
    rw [afterA a ha, hb]
    rfl
  · rw [firstB, hb]
    change ma.apply _ = _
    rw [afterB b hb, ha]
    rfl

/-- The element `<b data-eid="b">c</b>`. -/
def boldElement : ElementText where
  tag := .ofId (utf8 "b") (utf8 "b") isTagName_bold (.ofBytes (by decide))
  content := utf8 "c"
  gap := []
  isContent := .contentByte (by decide) .contentNil
  blank := .nil

def boldPlace : MarkerPlace boldElement.tag (utf8 "b") := ⟨[], [Byte.space], [], rfl⟩

theorem edits_commute_in_broken_text :
    let source := utf8 "\x7b'" ++ paragraph.text ++ utf8 "<q" ++ boldElement.text ++ utf8 "\"<p"
    let ma := Mutation.updateText "a" "x\x7d" (some "b")
    let mb := Mutation.setAttribute "b" "title" "y'"
    let result := utf8
      "\x7b'<p data-eid=\"a\">x&#125;<i/></p><q<b data-eid=\"b\" title=\"y'\">c</b>\"<p"
    (ma.apply source).bind mb.apply = .ok result ∧
      (mb.apply source).bind ma.apply = .ok result := by
  intro source ma mb result
  have afterA : ma.apply source = .ok (utf8 "\x7b'<p data-eid=\"a\">x&#125;<i/></p>" ++
      utf8 "<q" ++ boldElement.text ++ utf8 "\"<p") := by decide +kernel
  have afterB : mb.apply source = .ok (utf8 "\x7b'" ++ paragraph.text ++
      utf8 "<q<b data-eid=\"b\" title=\"y'\">c</b>\"<p") := by decide +kernel
  have both : (ma.apply source).bind mb.apply = .ok result := by decide +kernel
  obtain ⟨ra, rb, firstA, firstB, -, -, orders⟩ := @disjoint_edits_commute
    paragraph boldElement ma mb rfl rfl paragraphPlace (by decide) boldPlace (by decide)
    (utf8 "\x7b'") (utf8 "<q") (utf8 "\"<p")
    (by decide +kernel) (by decide +kernel)
    (by
      intro new h
      cases afterA.symm.trans h
      decide +kernel)
    (by
      intro new h
      cases afterB.symm.trans h
      decide +kernel)
  cases ra with
  | error refusal => cases afterA.symm.trans firstA
  | ok a =>
      cases rb with
      | error refusal => cases afterB.symm.trans firstB
      | ok b =>
          obtain ⟨one, other⟩ := orders a b rfl rfl
          exact ⟨both, other.trans (one.symm.trans both)⟩

end MarkupEdit
