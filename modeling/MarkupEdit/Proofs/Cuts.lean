import MarkupEdit.Proofs.ElementEdits
import MarkupEdit.Proofs.TextParts

/-!
The offsets at which scanning a text in UTF-8 cuts it: the names and values of attributes, tags,
elements and their content, runs of text, lines and ids. All of them are boundaries, in order and
inside the text, however broken the markup is.
-/

namespace MarkupEdit

namespace Cut

variable {text : Bytes} (ht : IsText text) {i j k : Nat}

theorem join (h : Cut text i j) (h' : Cut text j k) : Cut text i k :=
  ⟨Nat.le_trans h.le h'.le, h.start, h'.stop⟩

include ht

theorem ofSeams (hi : Seam text i) (hj : Seam text j) (le : i ≤ j) : Cut text i j :=
  ⟨le, hi.boundary ht, hj.boundary ht⟩

/-- The first part of a part. -/
theorem first (h : Cut text i j) (h' : Cut text j k) : Cut (text.slice i k) 0 (j - i) := by
  have split := Bytes.slice_append_slice h.le h'.le h.inside
  have width : (text.slice i j).length = j - i := Bytes.length_slice h.inside
  have both := (h.part ht).boundary_append (h'.part ht)
  rw [split, width] at both
  exact ⟨Nat.zero_le _, ((h.join h').part ht).ends.1, both⟩

end Cut

structure Attribute.Cuts (text : Bytes) (tag : OpenTag) (a : Attribute) : Prop where
  /-- The white space in front of an attribute lies behind the name of the tag. -/
  front : Cut text tag.nameEnd (a.start -
    ((text.slice tag.nameEnd a.start).reverse.takeWhile Byte.isBlank).length)
  name : Cut text a.start a.nameEnd
  value : ∀ v, a.value = some v → Cut text v.start (v.start + v.text.length)
  whole : Cut text a.start a.stop
  within : a.stop ≤ tag.bodyEnd
  isName : text.slice a.start a.nameEnd = a.name
  isValue : ∀ v, a.value = some v → text.slice v.start (v.start + v.text.length) = v.text

structure OpenTag.Cuts (text : Bytes) (tag : OpenTag) : Prop where
  name : Cut text (tag.start + 1) tag.nameEnd
  whole : Cut text tag.start tag.stop
  body : Cut text tag.nameEnd tag.bodyEnd
  ending : tag.bodyEnd < text.length
  trimmed : Cut text tag.nameEnd (tag.trimmedEnd text)
  isName : text.slice (tag.start + 1) tag.nameEnd = tag.name
  each : ∀ a ∈ tag.attributes text, a.Cuts text tag

theorem OpenTag.Sound.cuts {text : Bytes} {tag : OpenTag} (sound : tag.Sound text)
    (ht : IsText text) : tag.Cuts text := by
  have named : tag.start + 1 ≤ tag.nameEnd := by
    rw [OpenTag.nameEnd]
    omega
  have body := sound.body
  have reaches : tag.bodyEnd ≤ tag.stop := by
    rw [OpenTag.stop]
    omega
  refine {
    name := .ofSeams ht (.behind sound.less (by decide)) sound.nameEnd named
    whole := .ofSeams ht (.here sound.less (by decide)) sound.stop (by omega)
    body := .ofSeams ht sound.nameEnd sound.bodyEnd body
    ending := sound.inside
    trimmed := .ofSeams ht sound.nameEnd sound.trimmedEnd.2 sound.trimmedEnd.1
    isName := sound.name
    each := ?_ }
  intro a mem
  have part := sound.attribute mem
  have named := part.named
  obtain ⟨after, within, stop⟩ := part.stop
  have blanks := length_blanks_back text (i := tag.nameEnd) part.start.le
  have first := part.first
  refine {
    front := .ofSeams ht sound.nameEnd part.start.back (by omega)
    name := .ofSeams ht part.start part.nameEnd (Nat.le_of_lt named)
    value := ?_
    whole := .ofSeams ht part.start stop (by omega)
    within
    isName := part.name
    isValue := fun v hv => (part.value v hv).text }
  intro v hv
  have value := part.value v hv
  exact .ofSeams ht value.start value.stop (Nat.le_add_right _ _)

/-- The value of an attribute in a text is a text. -/
theorem Attribute.Cuts.isText_raw {text : Bytes} {tag : OpenTag} {a : Attribute}
    (cuts : a.Cuts text tag) (ht : IsText text) {raw : Bytes} (h : a.raw = some raw) :
    IsText raw := by
  obtain ⟨v, hv, rfl⟩ := Option.map_eq_some_iff.1 h
  rw [← cuts.isValue v hv]
  exact (cuts.value v hv).part ht

theorem Attribute.Cuts.isText_literal {text : Bytes} {tag : OpenTag} {a : Attribute}
    (cuts : a.Cuts text tag) (ht : IsText text) {encoding : Encoding} {literal : Bytes}
    (h : a.classify = .literal encoding literal) : IsText literal := by
  rw [Attribute.classify] at h
  cases raw : a.raw with
  | none =>
      rw [raw] at h
      cases h
  | some raw' =>
      rw [raw, AttributeValue.classify] at h
      split at h
      · cases h
      next parsed =>
        cases h
        exact Encoding.isText_parse (cuts.isText_raw ht raw) parsed

theorem isText_hasLiteral {text : Bytes} {tag : OpenTag} (cuts : tag.Cuts text)
    (ht : IsText text) {value : Bytes} (h : Edit.HasLiteral text tag value) : IsText value := by
  cases h with
  | inl empty =>
      rw [empty]
      exact .nil
  | inr literal =>
      obtain ⟨a, mem, encoding, classified⟩ := literal
      exact (cuts.each a mem).isText_literal ht classified

theorem lineStart_cut {text : Bytes} (ht : IsText text) {k : Nat} (hk : Boundary text k) :
    Cut text (text.lineStart k) k :=
  ⟨(lineStart_seam text k).1, (lineStart_seam text k).2.boundary ht, hk⟩

theorem lineIndent_cut {text : Bytes} (ht : IsText text) (k : Nat) :
    Cut text (text.lineStart k) (text.lineStart k + (text.lineIndent k).length) := by
  have line := (lineStart_seam text k).2
  exact .ofSeams ht line (indent_seam line) (Nat.le_add_right _ _)

theorem isText_lineIndent {text : Bytes} (ht : IsText text) (k : Nat) :
    IsText (text.lineIndent k) := by
  rw [lineIndent_eq_slice]
  exact (lineIndent_cut ht k).part ht

structure Location.Cuts (text : Bytes) (loc : Location) : Prop where
  whole : Cut text loc.start loc.stop
  opened : loc.start ≤ loc.openEnd
  opening : Cut loc.outer 0 (loc.openEnd - loc.start)
  behind : Cut text loc.openEnd loc.stop
  isOuter : loc.outer = text.slice loc.start loc.stop
  isOpening : loc.openingTag = text.slice loc.start loc.openEnd
  line : Cut text (text.lineStart loc.start) loc.start
  trailing : Cut text loc.stop
    (loc.stop + ((text.drop loc.stop).takeWhile Byte.isIndent).length)
  inner : ∀ start stop, loc.innerRange? = some (start, stop) → Cut text start stop
  run : ∀ start stop content, loc.innerRange? = some (start, stop) →
    Content.between? text start stop = some content →
    ∀ run ∈ content.runs, Cut text run.1 run.2

theorem Location.Sound.cuts {text : Bytes} {loc : Location} (sound : loc.Sound text)
    (ht : IsText text) : loc.Cuts text := by
  have opened := Nat.le_of_lt sound.opened
  have first : Cut text loc.start loc.openEnd := .ofSeams ht sound.start sound.openEnd opened
  have behind : Cut text loc.openEnd loc.stop :=
    .ofSeams ht sound.openEnd sound.stop sound.within
  have inner (start stop : Nat) (h : loc.innerRange? = some (start, stop)) :
      Seam text start ∧ Seam text stop ∧ start ≤ stop := by
    obtain ⟨same, le, -, seam⟩ := sound.innerRange h
    exact ⟨same ▸ sound.openEnd, seam, le⟩
  refine {
    whole := first.join behind
    opened
    opening := by rw [sound.outer]; exact first.first ht behind
    behind
    isOuter := sound.outer
    isOpening := ?_
    line := lineStart_cut ht first.start
    trailing := .ofSeams ht sound.stop (indent_seam sound.stop) (Nat.le_add_right _ _)
    inner := ?_
    run := ?_ }
  · have whole : loc.start + (loc.openEnd - loc.start) = loc.openEnd := by omega
    rw [Location.openingTag, sound.outer, Bytes.slice, Bytes.slice, List.take_drop, whole,
      List.take_take, Nat.min_eq_left sound.within]
  · intro start stop range
    obtain ⟨startSeam, stopSeam, le⟩ := inner start stop range
    exact .ofSeams ht startSeam stopSeam le
  · intro start stop content range between run mem
    obtain ⟨startSeam, stopSeam, -⟩ := inner start stop range
    have isRun := Content.runs_sound stopSeam startSeam (Nat.le_refl start) between run mem
    exact .ofSeams ht isRun.start isRun.stop (Nat.le_of_lt isRun.some)

theorem isText_opening : IsText Marker.opening :=
  (isText_utf8 "data-eid").append (isText_utf8 "=\"")

/-- Behind the beginning of a marker its id is cut out up to the next quote. -/
theorem idAt?_cut {text : Bytes} (ht : IsText text) {k : Nat}
    (stands : Marker.opening <+: text.drop k) :
    Cut text k (k + Marker.opening.length) ∧ ∀ id, Marker.idAt? text k = some id →
      Cut text (k + Marker.opening.length) (k + Marker.opening.length + id.length) ∧
      IsText id := by
  have ne : Marker.opening ≠ [] := by decide
  obtain ⟨start, stop⟩ := ht.stands isText_opening ne stands
  refine ⟨⟨Nat.le_add_right _ _, start, stop⟩, ?_⟩
  intro id found
  obtain ⟨width, index, rfl⟩ := Option.map_eq_some_iff.1 found
  obtain ⟨inside, quote, -⟩ := List.idxOf?_eq_some_iff.1 index
  have stands : (text.drop (k + Marker.opening.length))[width]? = some Byte.doubleQuote :=
    List.getElem?_eq_some_iff.2 ⟨inside, quote⟩
  have length : ((text.drop (k + Marker.opening.length)).take width).length = width := by
    rw [List.length_take]
    omega
  have front := (stop.back.boundary_of_ascii stands (by decide)).1.front
  rw [List.getElem?_drop] at stands
  rw [length]
  exact ⟨⟨Nat.le_add_right _ _, stop, (ht.boundary_of_ascii stands (by decide)).1⟩, front⟩

/-- The id that a tag carries is a text. -/
theorem isText_idIn? {s : Bytes} (hs : IsText s) {tag : OpenTag} {id : Bytes}
    (h : Marker.idIn? s tag = some id) : IsText id := by
  rw [Marker.idIn?] at h
  split at h
  · cases h
  next a found =>
    obtain ⟨width, occurs, kept⟩ := List.mem_filterMap.1 (List.mem_of_head? h)
    split at kept
    · have within := Bytes.stands_of_mem_occurrences occurs
      have stands : Marker.opening <+: s.drop (a.start - tag.start + width) := by
        rw [Bytes.slice, List.drop_drop, List.drop_take] at within
        exact within.trans (List.take_prefix _ _)
      exact ((idAt?_cut hs stands).2 id kept).2
    · cases kept

end MarkupEdit
