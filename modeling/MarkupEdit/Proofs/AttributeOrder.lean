import Mathlib.Data.List.Pairwise
import MarkupEdit.Proofs.Owner
import MarkupEdit.Proofs.TagEdits

/-!
The attributes of an opening tag in a text of any bytes stand one behind the other. Each takes as
many bytes for its name as it can, and none ends in white space, so the white space in front of
an attribute belongs to no other one.
-/

namespace MarkupEdit

namespace Scan

theorem Shows.stands {c : UInt8} {text : Bytes} {i j : Nat} (h : Shows c i (text.drop i) j) :
    text[j]? = some c := by
  obtain ⟨k, rfl, stands⟩ := h
  rwa [List.getElem?_drop] at stands

theorem EndsIn.stands {c : UInt8} {text : Bytes} {i j : Nat} (h : EndsIn c i (text.drop i) j) :
    ∃ k, j = k + 1 ∧ text[k]? = some c := by
  obtain ⟨k, rfl, shows⟩ := h
  exact ⟨k, rfl, shows.stands⟩

end Scan

/-- The mark that ends the body of a tag stands there. -/
theorem mark_of_openTag? {text : Bytes} {i : Nat} {tag : OpenTag}
    (h : Units.openTag? text i = some tag) :
    text[tag.bodyEnd]? = some (Scan.bodyMark tag.slashed) := by
  obtain ⟨t, rest, opened⟩ := Units.openTag?_eq_some_iff.1 h
  obtain ⟨-, tail, -⟩ := drop_eq_cons rest
  rw [← tail] at opened
  exact (Scan.openTag?_endsIn opened).1.stands

/-- A byte that is no white space stands right before the offset, unless that is the limit. -/
def Inked (text : Bytes) (limit j : Nat) : Prop :=
  j = limit ∨ ∃ k c, j = k + 1 ∧ text[k]? = some c ∧ Byte.isBlank c = false

namespace Attribute

/-- The name goes on for as long as it can, and the attribute does not end in white space. -/
structure Complete (text : Bytes) (limit : Nat) (a : Attribute) : Prop where
  named : ∀ c ∈ a.name, isAttributeNameByte c = true
  behind : a.nameEnd = limit ∨ ∃ c, text[a.nameEnd]? = some c ∧ isAttributeNameByte c = false
  inked : Inked text limit a.stop

theorem not_isBlank_of_nameByte {c : UInt8} (h : isAttributeNameByte c = true) :
    Byte.isBlank c = false := by
  simp only [isAttributeNameByte, Bool.not_eq_true', Bool.or_eq_false_iff] at h
  exact h.1.1.1.1.1

variable {text : Bytes} {limit : Nat}

theorem inked_min {i j : Nat} {c : UInt8} (h : Scan.EndsIn c i (text.drop i) j)
    (ink : Byte.isBlank c = false) : Inked text limit (min j limit) := by
  obtain ⟨k, rfl, stands⟩ := h.stands
  by_cases le : k + 1 ≤ limit
  · rw [Nat.min_eq_left le]
    exact .inr ⟨k, c, rfl, stands, ink⟩
  · rw [Nat.min_eq_right (by omega)]
    exact .inl rfl

theorem not_isBlank_of_isQuote {c : UInt8} (h : Byte.isQuote c = true) :
    Byte.isBlank c = false := by
  simp only [Byte.isQuote, Bool.or_eq_true, beq_iff_eq] at h
  cases h with
  | inl h => rw [h]; decide
  | inr h => rw [h]; decide

theorem blankWidth_stop {i : Nat} (le : i ≤ limit) (inside : limit ≤ text.length) :
    i + blankWidth limit i (text.drop i) = limit ∨
      ∃ c, text[i + blankWidth limit i (text.drop i)]? = some c ∧ Byte.isBlank c = false :=
  run_stop Byte.isBlank le inside

/-- A value without delimiters does not end in white space. -/
theorem bareEnd_inked (inside : limit < text.length) {i : Nat} (le : i ≤ limit)
    (ink : i = limit ∨ ∃ c, text[i]? = some c ∧ Byte.isBlank c = false) :
    Inked text limit
      (min (i + (((text.drop i).take (limit - i)).takeWhile (!Byte.isBlank ·)).length) limit) := by
  cases width : (((text.drop i).take (limit - i)).takeWhile (!Byte.isBlank ·)).length with
  | zero =>
      cases ink with
      | inl last => exact .inl (by omega)
      | inr ink =>
          obtain ⟨d, first, ink⟩ := ink
          have stop := run_stop (!Byte.isBlank ·) le (Nat.le_of_lt inside)
          rw [width] at stop
          cases stop with
          | inl last => exact .inl (by omega)
          | inr stop =>
              obtain ⟨e, blankThere, blank⟩ := stop
              cases blankThere.symm.trans first
              simp [ink] at blank
  | succ k =>
      obtain ⟨d, last, ink⟩ := takeWhile_last width
      rw [List.getElem?_take] at last
      split at last
      · rw [List.getElem?_drop] at last
        rw [Nat.min_eq_left (by omega)]
        exact .inr ⟨i + k, d, rfl, last, by simpa using ink⟩
      · cases last

theorem valueEnd_inked (inside : limit < text.length) {i j : Nat} (le : i ≤ limit)
    (ink : i = limit ∨ ∃ c, text[i]? = some c ∧ Byte.isBlank c = false)
    (h : valueEnd limit i (text.drop i) = some j) : Inked text limit (min j limit) := by
  rw [valueEnd.eq_def] at h
  split at h
  next empty =>
    cases h
    rw [List.drop_eq_nil_iff] at empty
    cases ink with
    | inl last => exact .inl (by omega)
    | inr ink =>
        obtain ⟨c, stands, -⟩ := ink
        have := (List.getElem?_eq_some_iff.1 stands).1
        omega
  next c t here =>
    obtain ⟨stands, tail, -⟩ := drop_eq_cons here
    split at h
    next quote =>
      have ends := Scan.quotedEnd_endsIn h
      rw [← tail] at ends
      exact inked_min ends (not_isBlank_of_isQuote quote)
    next =>
      split at h
      next =>
        have ends := Scan.templateEnd_endsIn h
        rw [← tail] at ends
        exact inked_min ends (by decide)
      next =>
        split at h
        next =>
          have ends := Scan.blockEnd_endsIn h
          rw [← tail] at ends
          exact inked_min ends (by decide)
        next =>
          cases h
          rw [← here]
          exact bareEnd_inked inside le ink

theorem le_start_of_rawValue? {i : Nat} {s : Bytes} {v : RawValue}
    (h : rawValue? limit i s = some (some v)) : i ≤ v.start := by
  simp only [rawValue?] at h
  split at h
  next =>
    obtain ⟨stop, -, whole⟩ := Option.map_eq_some_iff.1 h
    cases whole
    dsimp only
    omega
  next => cases h

theorem le_stop_of_rawValue? {a : Attribute} {s : Bytes}
    (h : rawValue? limit a.nameEnd s = some a.value) : a.nameEnd ≤ a.stop := by
  rw [Attribute.stop]
  cases hv : a.value with
  | none => exact Nat.le_refl _
  | some v =>
      rw [hv] at h
      exact Nat.le_trans (le_start_of_rawValue? h) (Nat.le_add_right _ _)

section

variable (inside : limit < text.length) (hl : Seam text limit)

include inside hl

theorem rawValue?_inked {i : Nat} {value : Option RawValue}
    (h : rawValue? limit i (text.drop i) = some value) {v : RawValue} (hv : value = some v) :
    Inked text limit (v.start + v.text.length) := by
  subst hv
  obtain ⟨gap, start, stop, room, -, here, ended, rfl⟩ := rawValue?_cases h
  have within : i + gap + 1 ≤ limit := by omega
  have upTo := blankWidth_le within (text.drop (i + gap + 1))
  have ink := blankWidth_stop within (Nat.le_of_lt inside)
  rw [← here] at upTo ink
  rw [length_value inside (valueEnd_seam inside hl upTo ended).1 upTo]
  exact valueEnd_inked inside upTo ink ended

/-- An attribute whose name was read to its end is complete. -/
theorem complete_of_read {i : Nat} {c : UInt8} {t tail : Bytes} {value : Option RawValue}
    (rest : text.drop i = c :: t) (room : i + 1 ≤ limit) (isName : isAttributeNameByte c = true)
    (run : tail = (t.take (limit - (i + 1))).takeWhile isAttributeNameByte)
    (found : rawValue? limit (i + 1 + tail.length) (t.drop tail.length) = some value) :
    Attribute.Complete text limit ⟨i, c :: tail, value⟩ := by
  have behind := (drop_eq_cons rest).2.1
  have nameEnd : Attribute.nameEnd ⟨i, c :: tail, value⟩ = i + 1 + tail.length := by
    simp only [Attribute.nameEnd, List.length_cons]
    omega
  have named : ∀ b ∈ c :: tail, isAttributeNameByte b = true := by
    intro b mem
    cases List.mem_cons.1 mem with
    | inl same => rwa [same]
    | inr mem =>
        rw [run] at mem
        exact List.all_eq_true.1 List.all_takeWhile b mem
  refine ⟨named, ?_, ?_⟩
  · have stop := run_stop isAttributeNameByte room (Nat.le_of_lt inside)
    rw [behind, ← run] at stop
    rwa [nameEnd]
  · rw [← behind, List.drop_drop] at found
    rw [Attribute.stop]
    cases hv : value with
    | some v => exact rawValue?_inked inside hl found hv
    | none =>
        have pre : c :: tail <+: text.drop i := by
          rw [rest, run]
          exact List.cons_prefix_cons.2
            ⟨rfl, (List.takeWhile_prefix _).trans (List.take_prefix _ _)⟩
        have last : text[i + tail.length]? = (c :: tail)[tail.length]? := by
          obtain ⟨r, split⟩ := pre
          rw [← List.getElem?_drop, ← split, List.getElem?_append_left (by simp)]
        refine .inr ⟨i + tail.length, (c :: tail)[tail.length], ?_, ?_, ?_⟩
        · dsimp only
          rw [Attribute.nameEnd, List.length_cons]
          exact (Nat.add_assoc _ _ _).symm
        · rw [last, List.getElem?_eq_getElem]
        · exact not_isBlank_of_nameByte (named _ (List.getElem_mem _))

/-- What an attribute scan finds is complete. -/
theorem scan_complete {i : Nat} : ∀ a ∈ scan limit i (text.drop i), a.Complete text limit := by
  generalize rest : text.drop i = s
  fun_induction scan limit i s with
  | case1 => simp
  | case2 => simp
  | case3 i c t before blank ih => exact ih (drop_eq_cons rest).2.1
  | case4 => simp
  | case5 i t before j ended _ ih =>
      have tail := (drop_eq_cons rest).2.1
      have bounds := Scan.blockEnd_bounds ended
      apply ih
      rw [← tail, goOn_drop text (by omega)]
  | case6 => simp
  | case7 i c t before _ _ name tail value found a ih =>
      have behind := (drop_eq_cons rest).2.1
      have nameEnd : i + 1 + tail.length = a.nameEnd := by
        simp only [a, Attribute.nameEnd, List.length_cons]
        omega
      intro b mem
      cases List.mem_cons.1 mem with
      | inl same =>
          rw [same]
          exact complete_of_read inside hl rest (by omega) name rfl found
      | inr mem =>
          rw [nameEnd] at found
          have later := le_stop_of_rawValue? found
          refine ih ?_ b mem
          rw [← behind, goOn_drop text (by omega)]
  | case8 i c t before _ _ stray ih => exact ih (drop_eq_cons rest).2.1

end

theorem le_start_of_scan {i : Nat} {s : Bytes} : ∀ a ∈ scan limit i s, i ≤ a.start := by
  fun_induction scan limit i s with
  | case1 => simp
  | case2 => simp
  | case3 i c t before blank ih => exact fun a mem => Nat.le_of_succ_le (ih a mem)
  | case4 => simp
  | case5 i t before j ended _ ih =>
      have bounds := Scan.blockEnd_bounds ended
      exact fun a mem => Nat.le_trans (by omega) (ih a mem)
  | case6 => simp
  | case7 i c t before _ _ name tail value found a ih =>
      have nameEnd : i + 1 + tail.length = a.nameEnd := by
        simp only [a, Attribute.nameEnd, List.length_cons]
        omega
      rw [nameEnd] at found
      have later := le_stop_of_rawValue? found
      intro b mem
      cases List.mem_cons.1 mem with
      | inl same => rw [same]
      | inr mem => exact Nat.le_trans (by omega) (ih b mem)
  | case8 i c t before _ _ stray ih => exact fun a mem => Nat.le_of_succ_le (ih a mem)

/-- The attributes found stand one behind the other. -/
theorem scan_ordered {i : Nat} {s : Bytes} :
    (scan limit i s).Pairwise fun a b => a.stop ≤ b.start := by
  fun_induction scan limit i s with
  | case1 => exact .nil
  | case2 => exact .nil
  | case3 i c t before blank ih => exact ih
  | case4 => exact .nil
  | case5 i t before j ended _ ih => exact ih
  | case6 => exact .nil
  | case7 i c t before notBlank notBrace name tail value found a ih =>
      exact .cons (fun b mem => le_start_of_scan b mem) ih
  | case8 i c t before _ _ stray ih => exact ih

end Attribute

namespace OpenTag

theorem attributes_eq_scan (text : Bytes) (tag : OpenTag) :
    tag.attributes text = Attribute.scan tag.bodyEnd tag.nameEnd (text.drop tag.nameEnd) := by
  have after : tag.start ≤ tag.nameEnd := by
    rw [nameEnd]
    omega
  rw [attributes, attributesIn, List.drop_drop, Nat.add_sub_cancel' after]

theorem attributes_ordered (text : Bytes) (tag : OpenTag) :
    (tag.attributes text).Pairwise fun a b => a.stop ≤ b.start := by
  rw [attributes_eq_scan]
  exact Attribute.scan_ordered

/-- Two attributes of a tag are the same one, or one stands behind the other. -/
theorem attributes_apart {text : Bytes} {tag : OpenTag} {a b : Attribute}
    (ha : a ∈ tag.attributes text) (hb : b ∈ tag.attributes text) (ne : a ≠ b) :
    a.stop ≤ b.start ∨ b.stop ≤ a.start := by
  have apart : (tag.attributes text).Pairwise
      fun a b => a.stop ≤ b.start ∨ b.stop ≤ a.start :=
    (tag.attributes_ordered text).imp .inl
  have : Std.Symm fun a b : Attribute => a.stop ≤ b.start ∨ b.stop ≤ a.start :=
    ⟨fun _ _ h => h.symm⟩
  exact apart.forall ha hb ne

namespace Sound

variable {text : Bytes} {tag : OpenTag} (sound : tag.Sound text)

include sound

theorem complete {a : Attribute} (mem : a ∈ tag.attributes text) :
    a.Complete text tag.bodyEnd := by
  rw [attributes_eq_scan] at mem
  exact Attribute.scan_complete sound.inside sound.bodyEnd a mem

/-- The white space in front of an attribute belongs to no other one. -/
theorem gap_before {a b : Attribute} (ha : a ∈ tag.attributes text)
    (hb : b ∈ tag.attributes text) (before : b.stop ≤ a.start) {gap : Nat}
    (blank : ∀ k, gap ≤ k → k < a.start → ∃ c, text[k]? = some c ∧ Byte.isBlank c = true) :
    b.stop ≤ gap := by
  have here := sound.attribute ha
  have short : a.start < tag.bodyEnd := Nat.lt_of_lt_of_le here.named here.within
  cases (sound.complete hb).inked with
  | inl last => omega
  | inr ink =>
      obtain ⟨k, c, stop, stands, ink⟩ := ink
      rw [stop] at before ⊢
      apply Nat.le_of_not_lt
      intro taken
      obtain ⟨d, same, isBlank⟩ := blank k (Nat.le_of_lt_succ taken) before
      cases same.symm.trans stands
      rw [ink] at isBlank
      cases isBlank

end Sound

theorem opening_cases {n : Nat} (h : n < Marker.attributeName.length) :
    ∃ c, Marker.opening[n]? = some c ∧ Attribute.isAttributeNameByte c = true ∧
      ∀ slashed, c ≠ Scan.bodyMark slashed := by
  have each : ∀ n < Marker.attributeName.length, ∃ c ∈ Marker.opening[n]?,
      Attribute.isAttributeNameByte c = true ∧ ∀ slashed, c ≠ Scan.bodyMark slashed := by
    decide
  exact each n h

/-- An attribute that starts at a marker bears the name of markers. -/
theorem name_of_marker {text : Bytes} {i : Nat} {tag : OpenTag}
    (opened : Units.openTag? text i = some tag) {a : Attribute} (mem : a ∈ tag.attributes text)
    (marker : Marker.opening <+: text.drop a.start) : a.name = Marker.attributeName := by
  have sound := sound_of_openTag? opened
  have here := sound.attribute mem
  have complete := sound.complete mem
  have written : a.name <+: text.drop a.start := by
    rw [← here.name, Bytes.slice, List.drop_take]
    exact List.take_prefix _ _
  have stands {n : Nat} (h : n < Marker.opening.length) :
      text[a.start + n]? = Marker.opening[n]? := by
    obtain ⟨r, split⟩ := marker
    rw [← List.getElem?_drop, ← split, List.getElem?_append_left h]
  -- A shorter name would stop at a byte that a name goes on with, a longer one would hold the `=`.
  have least : Marker.attributeName.length ≤ a.name.length := by
    apply Nat.le_of_not_lt
    intro short
    obtain ⟨c, first, isName, unmarked⟩ := opening_cases short
    have next : text[a.nameEnd]? = some c := by
      rw [Attribute.nameEnd, stands (Nat.lt_trans short (by decide)), first]
    cases complete.behind with
    | inl last =>
        rw [last, mark_of_openTag? opened] at next
        exact unmarked tag.slashed (Option.some.inj next).symm
    | inr stopped =>
        obtain ⟨d, there, stop⟩ := stopped
        cases there.symm.trans next
        rw [isName] at stop
        cases stop
  have most : a.name.length ≤ Marker.attributeName.length := by
    apply Nat.le_of_not_lt
    intro long
    have equals : Byte.equals ∈ a.name := by
      obtain ⟨r, split⟩ := written
      apply List.mem_of_getElem? (i := Marker.attributeName.length)
      have inName : (a.name ++ r)[Marker.attributeName.length]? =
          a.name[Marker.attributeName.length]? := List.getElem?_append_left long
      rw [← inName, split, List.getElem?_drop, stands (by decide)]
      rfl
    have := complete.named _ equals
    revert this
    decide
  have pre : Marker.attributeName <+: text.drop a.start :=
    (List.prefix_append _ _).trans marker
  rw [List.prefix_iff_eq_take.1 written, List.prefix_iff_eq_take.1 pre,
    Nat.le_antisymm most least]

end OpenTag

theorem isFresh_iff {text : Bytes} {m : Nat} :
    Marker.isFresh text m = true ↔
      ∃ k c, m = k + 1 ∧ text[k]? = some c ∧ Byte.isBlank c = true := by
  cases m with
  | zero => simp [Marker.isFresh]
  | succ k => simp [Marker.isFresh, List.head?_drop, Option.any_eq_true]

/-- The attribute starts at a marker of an id, behind white space. -/
structure Attribute.Marks (text id : Bytes) (a : Attribute) : Prop where
  named : a.name = Marker.attributeName
  stands : Marker.ofId id <+: text.drop a.start
  fresh : ∃ k c, a.start = k + 1 ∧ text[k]? = some c ∧ Byte.isBlank c = true

theorem marks_of_locateTag? {text id : Bytes} {tag : OpenTag}
    (h : locateTag? text id = some tag) : ∃ a ∈ tag.attributes text, a.Marks text id := by
  obtain ⟨m, mem, k, owns, -⟩ := locateTag?_eq_some_iff.1 h
  obtain ⟨a, member, rfl⟩ := owns.starts
  obtain ⟨found, fresh⟩ := List.mem_filter.1 mem
  have stands := Bytes.stands_of_mem_occurrences found
  have opening : Marker.opening <+: text.drop a.start := by
    rw [Marker.ofId, List.append_assoc] at stands
    exact (List.prefix_append _ _).trans stands
  exact ⟨a, member, OpenTag.name_of_marker owns.opens member opening, stands,
    isFresh_iff.1 fresh⟩

/-- The tag found for an id has a marker among its attributes. -/
theorem marker_of_locateTag? {text id : Bytes} {tag : OpenTag}
    (h : locateTag? text id = some tag) :
    ∃ a, tag.attribute? text Marker.attributeName = some a := by
  obtain ⟨a, member, marks⟩ := marks_of_locateTag? h
  rw [OpenTag.attribute?, ← Option.isSome_iff_exists, List.find?_isSome]
  exact ⟨a, member, by simpa using marks.named⟩

end MarkupEdit
