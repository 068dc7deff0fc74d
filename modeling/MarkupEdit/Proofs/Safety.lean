import MarkupEdit.Proofs.Counters
import MarkupEdit.Proofs.Element
import MarkupEdit.Proofs.Neighbours
import MarkupEdit.Proofs.WholeTexts

/-!
No text makes scanning, reading or editing step outside itself. Wherever a document is cut, the
offsets are boundaries between characters, in order and inside the text; no counter and no
difference of offsets goes below 0; and what mutations make of a text is a text.
-/

namespace MarkupEdit

theorem delimitedEnd_boundary {text : Bytes} (ht : IsText text) {i j : Nat}
    (h : Units.delimitedEnd text i = some j) : i < j ∧ Boundary text j := by
  rw [Units.delimitedEnd] at h
  split at h
  · cases h
  next c t rest =>
    have tail := (drop_eq_cons rest).2.1
    have boundary {j : Nat} (ends : Scan.Ends (i + 1) t j) : Boundary text j := by
      rw [← tail] at ends
      exact ends.seam.boundary ht
    split at h
    next quote =>
      rw [Units.quotedEnd, rest] at h
      have bounds := Scan.quotedEnd_bounds h
      exact ⟨by omega, boundary (Scan.quotedEnd_ends (Scan.isQuote_ascii quote) h)⟩
    next =>
      split at h
      next backtick =>
        simp only [Units.templateEnd, rest, if_pos backtick] at h
        have bounds := Scan.templateEnd_bounds h
        exact ⟨by omega, boundary (Scan.templateEnd_ends h)⟩
      next =>
        split at h
        next brace =>
          simp only [Units.blockEnd, rest, if_pos brace] at h
          have bounds := Scan.blockEnd_bounds h
          exact ⟨by omega, boundary (Scan.blockEnd_ends h)⟩
        next => cases h

theorem contentEnd_boundary {text : Bytes} (ht : IsText text) {i j : Nat} {name : Bytes}
    (h : Units.contentEnd text i name = some j) : i < j ∧ Boundary text j :=
  ⟨(Scan.contentEnd_bounds h).1, (Scan.contentEnd_ends h).1.seam.boundary ht⟩

theorem declarationEnd_boundary {text : Bytes} (ht : IsText text) {i j : Nat}
    (h : Scan.declarationEnd i (text.drop i) = some j) : i < j ∧ Boundary text j :=
  ⟨(Scan.declarationEnd_bounds h).1, (Scan.declarationEnd_ends h).seam.boundary ht⟩

theorem closeTag_boundary {text : Bytes} (ht : IsText text) {i : Nat} {close : CloseTag}
    (h : CloseTag.after? i (text.drop i) = some close) :
    i + close.name.length < close.stop ∧ Boundary text close.stop := by
  refine ⟨?_, (Scan.closeTag_ends h).seam.boundary ht⟩
  simp only [CloseTag.after?] at h
  split at h
  · cases h
  · split at h
    · cases h
      dsimp only
      omega
    · cases h

/-- The content of a literal is cut out between its marks. -/
theorem content?_cut {raw content : Bytes} (hr : IsText raw)
    (h : Encoding.content? raw = some content) :
    2 ≤ raw.length ∧ Cut raw 1 (raw.length - 1) ∧ content = raw.slice 1 (raw.length - 1) := by
  obtain ⟨first, last, hf, hl, rfl⟩ := Encoding.content?_split h
  have width : (first :: (content ++ [last])).length = content.length + 2 := by simp
  have front : (first :: (content ++ [last]))[0]? = some first := rfl
  have back : (first :: (content ++ [last]))[content.length + 1]? = some last := by simp
  rw [width]
  refine ⟨by omega, ⟨by omega, (hr.boundary_of_ascii front hf).2,
    (hr.boundary_of_ascii back hl).1⟩, ?_⟩
  rw [Bytes.slice, Nat.add_sub_assoc (by decide), List.take_succ_cons, List.drop_succ_cons,
    List.drop_zero, List.take_left]

namespace Siblings

theorem parentEnd_le (i depth : Nat) (s : Bytes) : parentEnd i depth s ≤ i + s.length := by
  fun_induction parentEnd i depth s with
  | case1 => exact Nat.le_refl _
  | _ => grind [→ Scan.blockEnd_bounds, → Scan.declarationEnd_bounds, → Scan.closeTag_bounds,
      → Scan.openTag?_bounds, → Scan.length_pos_of_head?]

/-- A step that lists an element is at its opening tag. -/
theorem openTag?_of_step {target i j : Nat} {s : Bytes} {m : Marked}
    (h : step target i s = some ([m], j)) :
    ∃ t tag, s = Byte.less :: t ∧ Scan.openTag? i t = some tag ∧
      Marker.idIn? s tag = some m.id := by
  rw [step.eq_def] at h
  split at h
  · cases h
  next c t =>
    split at h
    · obtain ⟨k, -, same⟩ := Option.map_eq_some_iff.1 h
      cases same
    · split at h
      next less =>
        split at h
        · obtain ⟨k, -, same⟩ := Option.map_eq_some_iff.1 h
          cases same
        · split at h
          · split at h
            · cases h
            · cases h
          · split at h
            · cases h
            next tag found =>
              injection h with same
              injection same with listed
              rw [marked] at listed
              split at listed
              · cases listed
              next id read =>
                cases listed
                exact ⟨t, tag, by rw [less], found, read⟩
      next => cases h

/-- Where the search for neighbours of a located element cuts the text. -/
structure Cuts (text : Bytes) (loc : Location) : Prop where
  region : max (parentEnd loc.stop 0 (text.drop loc.stop)) loc.stop ≤ text.length
  listed : ∀ m ∈ walk text loc, ∃ tag, Units.openTag? text m.start = some tag ∧
    Boundary text m.start ∧ IsText m.id

theorem cuts_of_location {text : Bytes} (ht : IsText text) {loc : Location}
    (inside : loc.stop ≤ text.length) : Cuts text loc := by
  constructor
  · have le := parentEnd_le loc.stop 0 (text.drop loc.stop)
    rw [List.length_drop] at le
    omega
  · intro m mem
    obtain ⟨i, stop, -, run⟩ := walk_spec text loc
    obtain ⟨-, j, -, -, first, -⟩ := run.split mem
    obtain ⟨t, tag, rest, found, read⟩ := openTag?_of_step first
    have stands := (drop_eq_cons rest).1
    have start := (ht.boundary_of_ascii stands (by decide)).1
    exact ⟨tag, Units.openTag?_eq_some_iff.2 ⟨t, rest, found⟩, start,
      isText_idIn? start.back read⟩

theorem isText_neighbours {text : Bytes} {loc : Location} (cuts : Cuts text loc) {id : Bytes}
    (h : (ofLocation text loc).previous = some id ∨ (ofLocation text loc).next = some id) :
    IsText id := by
  have sorted := sorted_walk text loc
  rw [ofLocation_eq] at h
  cases h with
  | inl previous =>
      obtain ⟨-, -, m, mem, -, rfl, -⟩ := exists_of_previous sorted previous
      obtain ⟨-, -, -, isText⟩ := cuts.listed m mem
      exact isText
  | inr next =>
      obtain ⟨-, -, m, mem, -, rfl, -⟩ := exists_of_next sorted next
      obtain ⟨-, -, -, isText⟩ := cuts.listed m mem
      exact isText

end Siblings

def AttributeValue.IsText : AttributeValue → Prop
  | .literal _ text => MarkupEdit.IsText text
  | .binding raw => MarkupEdit.IsText raw
  | .bare => True

theorem Attribute.Cuts.isText_classify {text : Bytes} {tag : OpenTag} {a : Attribute}
    (cuts : a.Cuts text tag) (ht : IsText text) : a.classify.IsText := by
  cases classified : a.classify with
  | literal encoding literal => exact cuts.isText_literal ht classified
  | bare => trivial
  | binding raw =>
      rw [classify] at classified
      cases written : a.raw with
      | none =>
          rw [written] at classified
          cases classified
      | some value =>
          rw [written, AttributeValue.classify] at classified
          split at classified
          · cases classified
            exact cuts.isText_raw ht written
          · cases classified

theorem isText_ofId (id : String) : IsText (Marker.ofId (utf8 id)) :=
  (isText_opening.append (isText_utf8 id)).append (.ascii (by decide))

/-- What scanning, reading and editing take for granted of a document: that it can be cut where
they cut it, and that counters and differences of offsets do not go below 0. -/
structure Safe (text : Bytes) : Prop where
  delimited : ∀ i j, Units.delimitedEnd text i = some j → i < j ∧ Boundary text j
  declaration : ∀ i j, Scan.declarationEnd i (text.drop i) = some j → i < j ∧ Boundary text j
  content : ∀ i name j, Units.contentEnd text i name = some j → i < j ∧ Boundary text j
  tag : ∀ i tag, Units.openTag? text i = some tag → tag.Cuts text
  closeTag : ∀ i close, CloseTag.after? i (text.drop i) = some close →
    i + close.name.length < close.stop ∧ Boundary text close.stop
  unbraced : ∀ raw inner, IsText raw → Encoding.unbraced? raw = some inner → IsText inner
  /-- The first and the last byte of a literal are cut off. -/
  literal : ∀ raw content, IsText raw → Encoding.content? raw = some content →
    2 ≤ raw.length ∧ Cut raw 1 (raw.length - 1) ∧ content = raw.slice 1 (raw.length - 1)
  line : ∀ k, Boundary text k → Cut text (text.lineStart k) k ∧
    Cut text (text.lineStart k) (text.lineStart k + (text.lineIndent k).length)
  trim : ∀ i j, (text.slice i j).trimStart.length ≤ (text.slice i j).length
  marker : ∀ (id : String), ∀ k ∈ Marker.offsets text (utf8 id),
    0 < k ∧ Cut text k (k + (Marker.ofId (utf8 id)).length)
  markedId : ∀ k, Marker.opening <+: text.drop k →
    Cut text k (k + Marker.opening.length) ∧ ∀ id, Marker.idAt? text k = some id →
      Cut text (k + Marker.opening.length) (k + Marker.opening.length + id.length) ∧ IsText id
  location : ∀ id loc, locate? text id = some loc → loc.Cuts text ∧ Siblings.Cuts text loc
  neighbours : ∀ id found, siblings text id = .ok found →
    ∀ x, found.previous = some x ∨ found.next = some x → IsText x
  classes : ∀ id classes, readClasses? text id = some classes → IsText classes
  value : ∀ id name value, readAttribute? text id name = some value → value.IsText
  /-- A move goes on in the text without the element, also where it is refused then. -/
  removal : ∀ id loc, locate? text id = some loc →
    (Edit.removeLocated text loc).Legal text ∧
      IsText ((Edit.removeLocated text loc).apply text)
  patch : ∀ (m : Mutation) patches, m.plan text = .ok patches →
    text.Each (fun text q => q.Legal text) patches
  result : ∀ m : Mutation, ∃ result : Except Refusal String, m.apply text = result.map utf8
  /-- The depth of a brace block stays above 0 up to its last brace. -/
  blockDepth : ∀ i t, text.drop i = Byte.openBrace :: t →
    Checked.blockEnd? i 0 (text.drop i) = some (Units.blockEnd text i)
  contentDepth : ∀ i name,
    Checked.contentEnd? i name 1 (text.drop i) = some (Units.contentEnd text i name)
  braceDepth : ∀ i, text[i]? = some Byte.closeBrace →
    Checked.openingBrace? 0 (Place.backward text (i + 1)) =
      some (Siblings.openingBrace? 0 (Place.backward text i))
  parentStartDepth : ∀ i, Checked.parentStart? i 0 (Place.backward text i) =
    some (Siblings.parentStart i 0 (Place.backward text i))
  parentEndDepth : ∀ i, Checked.parentEnd? i 0 (text.drop i) =
    some (Siblings.parentEnd i 0 (text.drop i))

theorem IsText.safe {text : Bytes} (ht : IsText text) : Safe text := by
  have located {id : Bytes} {tag : OpenTag} (h : locateTag? text id = some tag) :
      tag.Cuts text := (sound_of_locateTag? h).cuts ht
  have cuts {id : Bytes} {loc : Location} (h : locate? text id = some loc) :
      loc.Cuts text ∧ Siblings.Cuts text loc := by
    have cuts := (sound_of_locate? h).cuts ht
    exact ⟨cuts, Siblings.cuts_of_location ht cuts.whole.inside⟩
  refine {
    delimited := fun i j => delimitedEnd_boundary ht
    declaration := fun i j => declarationEnd_boundary ht
    content := fun i name j => contentEnd_boundary ht
    tag := fun i tag h => (sound_of_openTag? h).cuts ht
    closeTag := fun i close => closeTag_boundary ht
    unbraced := fun raw inner => Encoding.isText_unbraced?
    literal := fun raw content => content?_cut
    line := fun k hk => ⟨lineStart_cut ht hk, lineIndent_cut ht k⟩
    trim := fun i j => length_trimStart_le _
    marker := ?marker
    markedId := fun k => idAt?_cut ht
    location := fun id loc => cuts
    neighbours := ?neighbours
    classes := ?classes
    value := ?value
    removal := ?removal
    patch := fun m patches => Mutation.plan_legal ht
    result := ?result
    blockDepth := ?blockDepth
    contentDepth := fun i name => Checked.contentEnd?_eq i name 0 _
    braceDepth := ?braceDepth
    parentStartDepth := fun i => Checked.parentStart?_eq i 0 _
    parentEndDepth := fun i => Checked.parentEnd?_eq i 0 _ }
  case marker =>
    intro id k mem
    obtain ⟨occurs, fresh⟩ := List.mem_filter.1 mem
    have stands := Bytes.stands_of_mem_occurrences occurs
    obtain ⟨start, stop⟩ := ht.stands (isText_ofId id) (ofId_ne_nil _) stands
    refine ⟨?_, Nat.le_add_right _ _, start, stop⟩
    cases k with
    | zero => cases fresh
    | succ k => exact Nat.succ_pos k
  case neighbours =>
    intro id found h x named
    rw [siblings] at h
    split at h
    · cases h
    next loc here =>
      cases h
      exact Siblings.isText_neighbours (cuts here).2 named
  case classes =>
    intro id classes h
    obtain ⟨tag, here, read⟩ := Option.bind_eq_some_iff.1 h
    obtain ⟨⟨a, value⟩, chosen, rfl⟩ := Option.map_eq_some_iff.1 read
    obtain ⟨mem, encoding, literal⟩ := Edit.choose?_literal chosen
    exact ((located here).each a mem).isText_literal ht literal
  case value =>
    intro id name value h
    obtain ⟨tag, here, read⟩ := Option.bind_eq_some_iff.1 h
    obtain ⟨a, found, rfl⟩ := Option.map_eq_some_iff.1 read
    exact ((located here).each a (List.mem_of_find?_eq_some found)).isText_classify ht
  case removal =>
    intro id loc h
    have legal := Edit.removeLocated_legal ht (sound_of_locate? h)
    exact ⟨legal, legal.isText_apply⟩
  case result =>
    intro m
    obtain ⟨source, rfl⟩ := ht
    exact m.apply_utf8 source
  case blockDepth =>
    intro i t rest
    rw [Units.blockEnd, rest, Checked.blockEnd?, if_pos rfl, Checked.blockEnd?_eq]
    rfl
  case braceDepth =>
    intro i stands
    obtain ⟨inside, brace⟩ := List.getElem?_eq_some_iff.1 stands
    have head : (Place.of text i).rest.head? = some Byte.closeBrace := by
      rw [Place.of, List.head?_drop, stands]
    rw [Place.backward_succ inside, Checked.openingBrace?, head]
    exact Checked.openingBrace?_eq 0 _

/-- No document makes scanning, reading or editing go wrong, whatever the ids and parameters. -/
theorem document_safe (source : String) : Safe (utf8 source) := (isText_utf8 source).safe

end MarkupEdit
