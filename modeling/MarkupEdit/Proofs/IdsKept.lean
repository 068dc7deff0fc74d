import MarkupEdit.Proofs.EditedTag
import MarkupEdit.Proofs.NestedForest

/-!
What an edit of the attributes or the text of one element does to the ids of the others, in a
document as written. The tags of the other elements are kept; their ids are found again unless the
new text lets a tag be read that was not written.
-/

namespace MarkupEdit

namespace Forest

/-- An element with a closing tag and nested content is a part of a row of pieces. -/
def HasElement (a : TagText) (o i : Nat) (xs : List Piece) : Prop :=
  ∃ pre inner gap post, AllBlank gap ∧ Nested 0 inner 0 ∧
    xs = pre ++ (pairedPieces a inner gap ++ post) ∧ i = o + (Piece.join pre).length

variable {doc : Forest} {o i : Nat} {a : TagText}

theorem HasElement.behind {xs ys : List Piece}
    (h : HasElement a (o + (Piece.join ys).length) i xs) : HasElement a o i (ys ++ xs) := by
  obtain ⟨pre, inner, gap, post, blank, nested, rfl, rfl⟩ := h
  refine ⟨ys ++ pre, inner, gap, post, blank, nested, by simp, ?_⟩
  rw [Piece.join_append, List.length_append, Nat.add_assoc]

theorem HasElement.before {xs : List Piece} (h : HasElement a o i xs) (ys : List Piece) :
    HasElement a o i (xs ++ ys) := by
  obtain ⟨pre, inner, gap, post, blank, nested, rfl, rfl⟩ := h
  exact ⟨pre, inner, gap, post ++ ys, blank, nested, by simp, rfl⟩

theorem HasElement.cons {x : Piece} {xs : List Piece}
    (h : HasElement a (o + x.bytes.length) i xs) : HasElement a o i (x :: xs) := by
  have width : Piece.join [x] = x.bytes := List.flatMap_singleton _ _
  change HasElement a o i ([x] ++ xs)
  apply HasElement.behind
  rwa [width]

theorem Nested.element {d e : Nat} (nested : doc.Nested d e)
    (mem : (i, .opening a) ∈ Piece.placed o doc.pieces) (opens : a.closesItself = false) :
    HasElement a o i doc.pieces := by
  induction nested generalizing o with
  | nil d => cases mem
  | text code hrest ih =>
      cases List.mem_cons.1 mem with
      | inl same => cases same
      | inr mem => exact (ih mem).cons
  | comment hrest ih =>
      cases List.mem_cons.1 mem with
      | inl same => cases same
      | inr mem => exact (ih mem).cons
  | @single tag alone rest d e hrest ih =>
      cases List.mem_cons.1 mem with
      | inl same =>
          cases same
          rw [alone] at opens
          cases opens
      | inr mem => exact (ih mem).cons
  | @paired tag open' inner gap blank rest d e hinner hrest ihinner ih =>
      rw [pieces_paired, Piece.placed_append] at mem
      rw [pieces_paired]
      cases List.mem_append.1 mem with
      | inr mem => exact (ih mem).behind
      | inl mem =>
          apply HasElement.before
          cases List.mem_cons.1 mem with
          | inl same =>
              cases same
              exact ⟨[], inner, gap, [], blank, hinner, (List.append_nil _).symm, rfl⟩
          | inr mem =>
              rw [Piece.placed_append] at mem
              cases List.mem_append.1 mem with
              | inl mem => exact ((ihinner mem).before _).cons
              | inr close => cases List.mem_singleton.1 close

end Forest

theorem less_not_mem_escapeText (text : Bytes) : Byte.less ∉ Edit.escapeText text := by
  intro mem
  obtain ⟨c, -, mem⟩ := List.mem_flatMap.1 mem
  revert mem
  rw [Edit.escapeByte]
  split
  · decide
  split
  · decide
  next notLess =>
    split
    · decide
    split
    · decide
    split
    · decide
    · intro mem
      exact notLess (List.mem_singleton.1 mem).symm

theorem Content.runs_flat {stop start i : Nat} {s : Bytes} {content : Content}
    (h : scan? stop start i s = some content) (flat : content.nested = false) :
    content.runs = run start stop := by
  fun_induction Content.scan? stop start i s generalizing content with
  | case1 =>
      cases h
      rfl
  | case2 =>
      cases h
      rfl
  | case3 => cases h
  | case4 start i c t before read ih => exact ih h flat
  | case5 => cases h
  | case6 =>
      cases h
      cases flat

/-- A tag as written that is located opens the element that is written. -/
theorem location_written {e : ElementText} {p s : Bytes} {id : Bytes} {loc : Location}
    (located : locate? (p ++ (e.text ++ s)) id = some loc) (start : loc.start = p.length) :
    loc = e.locatedAt p.length := by
  obtain ⟨t, found, rfl⟩ := Option.map_eq_some_iff.1 located
  obtain ⟨m, -, k, owns, -⟩ := locateTag?_eq_some_iff.1 found
  have opens := owns.opens
  have here : k = p.length := (start_owner? owns).symm.trans start
  rw [here, ElementText.text, List.append_assoc, e.tag.openTag?_in] at opens
  rw [← Option.some.inj opens]
  exact location_element e p s

namespace Forest

variable {doc : Forest} {i : Nat} {a : TagText}

theorem selfClosing_written {id : Bytes} {loc : Location} (stands : doc.Stands i (.opening a))
    (located : locate? doc.bytes id = some loc) (start : loc.start = i) :
    loc.selfClosing = a.closesItself := by
  obtain ⟨t, found, rfl⟩ := Option.map_eq_some_iff.1 located
  obtain ⟨m, -, k, owns, -⟩ := locateTag?_eq_some_iff.1 found
  rw [← start_owner? owns, show t.start = i from start] at owns
  rw [eq_reading stands owns]
  rfl

/-- The tag that is located where a tag as written stands is that tag. -/
theorem tag_written {id : Bytes} {t : OpenTag} (stands : doc.Stands i (.opening a))
    (here : ∃ loc, locate? doc.bytes id = some loc ∧ loc.start = i)
    (located : locateTag? doc.bytes id = some t) : t = a.reading i := by
  obtain ⟨loc, found, start⟩ := here
  rw [locate?, located, Option.map_some] at found
  cases found
  obtain ⟨m, -, k, owns, -⟩ := locateTag?_eq_some_iff.1 located
  rw [← start_owner? owns, show t.start = i from start] at owns
  exact eq_reading stands owns

/-- A patch inside the content of an element that spares the tags and comments there spares all
those of the document. -/
theorem spares_around {q : Patch} {pre post : List Piece} {inner : Forest} {gap : Bytes}
    {start stop : Nat} (hstart : start = (Piece.join pre).length + a.text.length)
    (hstop : stop = start + inner.bytes.length) (first : start ≤ q.start) (last : q.stop ≤ stop)
    (within : ∀ k x, (k, x) ∈ Piece.placed start inner.pieces → Byte.less ∈ x.bytes →
      q.Spares k (k + x.bytes.length))
    {k : Nat} {x : Piece}
    (mem : (k, x) ∈ Piece.placed 0 (pre ++ (pairedPieces a inner gap ++ post)))
    (less : Byte.less ∈ x.bytes) : q.Spares k (k + x.bytes.length) := by
  rw [Piece.placed_append, Piece.placed_append, Nat.zero_add, join_pairedPieces] at mem
  cases List.mem_append.1 mem with
  | inl mem =>
      have bounds := (Piece.placed_bounds mem).2
      exact .inl (by omega)
  | inr mem =>
      cases List.mem_append.1 mem with
      | inr mem =>
          have bounds := (Piece.placed_bounds mem).1
          rw [pairedText, List.length_append, List.length_append] at bounds
          exact .inr (by omega)
      | inl mem =>
          cases List.mem_cons.1 mem with
          | inl same =>
              cases same
              rw [hstart] at first
              exact .inl first
          | inr mem =>
              change (k, x) ∈ Piece.placed ((Piece.join pre).length + a.text.length) _ at mem
              rw [Piece.placed_append, ← hstart] at mem
              cases List.mem_append.1 mem with
              | inl mem => exact within k x mem less
              | inr close =>
                  cases List.mem_singleton.1 close
                  rw [hstop] at last
                  exact .inr last

/-- A patch in a run of text, or in content that is text throughout, spares the tags and comments
that are written in the content. -/
theorem Nested.spares_inside {inner : Forest} (nested : inner.Nested 0 0) {start stop : Nat}
    {s : Bytes} {content : Content}
    (scanned : Content.scan? stop start start (inner.bytes ++ s) = some content) {q : Patch}
    (first : start ≤ q.start) (last : q.stop ≤ stop)
    (place : (∃ run ∈ content.runs, run.1 ≤ q.start ∧ q.stop ≤ run.2) ∨ content.nested = false)
    {k : Nat} {x : Piece} (mem : (k, x) ∈ Piece.placed start inner.pieces)
    (less : Byte.less ∈ x.bytes) : q.Spares k (k + x.bytes.length) := by
  have inRun (run : Nat × Nat) (mem' : run ∈ content.runs) (before : run.1 ≤ q.start)
      (behind : q.stop ≤ run.2) : q.Spares k (k + x.bytes.length) := by
    cases nested.run_apart ⟨start, content, Nat.le_refl _, scanned, mem'⟩ mem less with
    | inl later => exact .inr (Nat.le_trans behind later)
    | inr earlier => exact .inl (Nat.le_trans earlier before)
  cases place with
  | inl run =>
      obtain ⟨run, mem', before, behind⟩ := run
      exact inRun run mem' before behind
  | inr flat =>
      have runs := Content.runs_flat scanned flat
      rw [Content.run] at runs
      split at runs
      · exact inRun (start, stop) (by rw [runs]; exact List.mem_singleton_self _) first last
      next empty =>
        have bounds := (Piece.placed_bounds mem).1
        exact .inr (by omega)

/-- The content that is read in an element as written is the one written there. -/
theorem Nested.contentOf_written {d e : Nat} (nested : doc.Nested d e)
    (stands : doc.Stands i (.opening a)) {id : Bytes}
    (here : ∃ loc, locate? doc.bytes id = some loc ∧ loc.start = i) {start stop : Nat}
    {content : Content} (found : Edit.contentOf doc.bytes id = .ok (start, stop, content)) :
    ∃ pre inner gap post, doc.pieces = pre ++ (pairedPieces a inner gap ++ post) ∧
      inner.Nested 0 0 ∧ i = (Piece.join pre).length ∧
      start = (Piece.join pre).length + a.text.length ∧ stop = start + inner.bytes.length ∧
      ∃ s, Content.scan? stop start start (inner.bytes ++ s) = some content := by
  obtain ⟨loc, located, range, between⟩ := Edit.contentOf_eq_ok found
  have start' : loc.start = i := by
    obtain ⟨loc', located', start'⟩ := here
    cases located.symm.trans located'
    exact start'
  have opens : a.closesItself = false := by
    rw [← selfClosing_written stands located start']
    rw [Location.innerRange?] at range
    split at range
    · cases range
    next closing =>
      rw [not_or] at closing
      exact Bool.eq_false_iff.2 closing.1
  obtain ⟨pre, inner, gap, post, blank, hinner, split, place⟩ := nested.element stands opens
  rw [Nat.zero_add] at place
  -- The content is well-formed, so the element is closed by the tag that is written for it.
  let whole : ElementText := ⟨a, inner.bytes, gap, hinner.content, blank⟩
  have text : whole.text = a.text ++ (inner.bytes ++ closeTagText a.name gap) := by
    rw [ElementText.text, ElementText.tail, if_neg (by simp [whole, opens])]
  have bytes : doc.bytes = Piece.join pre ++ (whole.text ++ Piece.join post) := by
    rw [Forest.bytes, split, Piece.join_append, Piece.join_append, join_pairedPieces, text]
    rfl
  rw [bytes] at located between
  rw [location_written located (start'.trans place), whole.innerRange?_open opens] at range
  cases range
  have rest : (Piece.join pre ++ (whole.text ++ Piece.join post)).drop
      ((Piece.join pre).length + a.text.length) =
      inner.bytes ++ (closeTagText a.name gap ++ Piece.join post) := by
    rw [List.drop_length_add_append, text, List.append_assoc, List.drop_left, List.append_assoc]
  rw [Content.between?, show whole.tag = a from rfl, rest] at between
  exact ⟨pre, inner, gap, post, split, hinner, place, rfl, (Nat.add_assoc _ _ _).symm, _, between⟩

/-- An edit of an element's text puts in no `<`, and replaces nothing of a tag or a comment. -/
theorem Nested.setText_spares {d e : Nat} (nested : doc.Nested d e)
    (stands : doc.Stands i (.opening a)) {id new : Bytes} {old : Option Bytes}
    (here : ∃ loc, locate? doc.bytes id = some loc ∧ loc.start = i) {patches : List Patch}
    (h : Edit.setText doc.bytes id new old = .ok patches) :
    ∃ q, patches = [q] ∧ q.Within doc.bytes ∧ Byte.less ∉ q.replacement ∧ i < q.start ∧
      ∀ k x, doc.Stands k x → Byte.less ∈ x.bytes → q.Spares k (k + x.bytes.length) := by
  obtain ⟨start, stop, content, q, found, planned, written, within, first, last, place⟩ :=
    setText_patch h
  obtain ⟨pre, inner, gap, post, split, hinner, here, start', stop', s, scanned⟩ :=
    nested.contentOf_written stands here found
  have width := List.length_pos_iff.2 (text_ne_nil a)
  refine ⟨q, planned, within, by rw [written]; exact less_not_mem_escapeText new, by omega, ?_⟩
  intro k x there less
  rw [Stands, split] at there
  exact spares_around start' stop' first last
    (fun k x mem less => hinner.spares_inside scanned first last place mem less) there less

/-- An edit in the body of a tag replaces nothing of the other tags and comments. -/
theorem ofAttribute_spares {q : Patch} {edited : Option Attribute}
    (stands : doc.Stands i (.opening a)) (patch : q.OfAttribute doc.bytes (a.reading i) edited) :
    i < q.start ∧ ∀ k x, doc.Stands k x → Byte.less ∈ x.bytes → k ≠ i →
      q.Spares k (k + x.bytes.length) := by
  have first := patch.behindName
  have last := patch.inBody
  have stop := a.stop_reading i
  rw [OpenTag.stop] at stop
  have behind : i < (a.reading i).nameEnd := by
    change i < i + 1 + a.name.length
    omega
  refine ⟨Nat.lt_of_lt_of_le behind first, fun k x there less ne => ?_⟩
  cases Piece.placed_apart there stands fun same => ne (Prod.mk.inj same).1 with
  | inl before => exact .inl (by omega)
  | inr after =>
      change i + a.text.length ≤ k at after
      exact .inr (by omega)

/-- What a patch around the tag `a` at offset `i` does to the ids of a document: the other tags are
spared, and an id that one of them carries is found in it, before and after, exactly where no
misread tag and no stray tag spoils it; an id that no tag carries is found only in such a tag. -/
structure KeepsIds (doc : Forest) (i : Nat) (a : TagText) (q : Patch) : Prop where
  spares : ∀ k x, doc.Stands k x → Byte.less ∈ x.bytes → k ≠ i →
    q.Spares k (k + x.bytes.length)
  carried : ∀ id k tag, doc.Stands k (.opening tag) → k ≠ i → tag.Carries id →
    (∀ k' tag', doc.Stands k' (.opening tag') → tag'.Carries id → k' = k) →
    ((∃ loc loc', locate? doc.bytes id = some loc ∧ loc.start = k ∧
        locate? (q.apply doc.bytes) id = some loc' ∧ loc'.start = q.moved k ∧
        loc'.openingTag = loc.openingTag) ↔
      Unspoilt doc.bytes id k doc.Misread ∧
        Unspoilt (q.apply doc.bytes) id (q.moved k) (doc.Stray q))
  absent : ∀ id, QuotedText Byte.doubleQuote id →
    (∀ k tag, doc.Stands k (.opening tag) → ¬ tag.Carries id) →
    ((locate? doc.bytes id = none ∧ locate? (q.apply doc.bytes) id = none) ↔
      (∀ m ∈ Marker.offsets doc.bytes id, ∀ k, ¬ doc.Misread k m) ∧
        ∀ m ∈ Marker.offsets (q.apply doc.bytes) id, ∀ k, ¬ doc.Stray q k m)
  /-- In a clear document and without a `<` in what is put in, the tag `a` itself is the only one
  that can be stray, and only if it was changed. -/
  stray : doc.Clear → Byte.less ∉ q.replacement → ∀ k m, doc.Stray q k m →
    k = i ∧ ¬ q.Spares i (i + a.text.length)

theorem keepsIds {q : Patch} (stands : doc.Stands i (.opening a)) (within : q.Within doc.bytes)
    (fixed : q.moved i = i)
    (spares : ∀ k x, doc.Stands k x → Byte.less ∈ x.bytes → k ≠ i →
      q.Spares k (k + x.bytes.length)) : doc.KeepsIds i a q where
  spares := spares
  carried := by
    intro id k tag there ne carries only
    have kept := spares k _ there List.mem_cons_self ne
    rw [← found_iff_unspoilt carries.quoted only,
      ← found_again_iff_unspoilt carries.quoted only within]
    obtain ⟨u, v, split, width⟩ := there.bytes
    obtain ⟨u', v', split', width'⟩ := there.tag_moved within kept
    constructor
    · rintro ⟨loc, loc', located, start, located', start', -⟩
      obtain ⟨t, found, rfl⟩ := Option.map_eq_some_iff.1 located
      obtain ⟨t', found', rfl⟩ := Option.map_eq_some_iff.1 located'
      exact ⟨⟨t, found, start⟩, ⟨t', found', start'⟩⟩
    · rintro ⟨⟨t, found, start⟩, ⟨t', found', start'⟩⟩
      refine ⟨t.location _, t'.location _, by rw [locate?, found]; rfl, start,
        by rw [locate?, found']; rfl, start', ?_⟩
      rw [openingTag_written found split (start.trans width.symm),
        openingTag_written found' split' (start'.trans width'.symm)]
  absent := by
    intro id hid absent
    rw [← absent_iff hid absent, ← absent_again_iff hid absent within, locate?, locate?,
      Option.map_eq_none_iff, Option.map_eq_none_iff]
  stray := fun clear plain k m stray => stray.eq_changed within stands fixed spares clear plain

/-- The ids of the elements other than the one at offset `i` are found as before: one without `=`
that a single tag carries in that tag, one that no tag carries nowhere. -/
structure FindsOthers (doc : Forest) (i : Nat) (q : Patch) : Prop where
  carried : ∀ id k tag, doc.Stands k (.opening tag) → k ≠ i → tag.Carries id → Byte.equals ∉ id →
    (∀ k' tag', doc.Stands k' (.opening tag') → tag'.Carries id → k' = k) →
    ∃ loc loc', locate? doc.bytes id = some loc ∧ loc.start = k ∧
      locate? (q.apply doc.bytes) id = some loc' ∧ loc'.start = q.moved k ∧
      loc'.openingTag = loc.openingTag
  absent : ∀ id, QuotedText Byte.doubleQuote id →
    (∀ k tag, doc.Stands k (.opening tag) → ¬ tag.Carries id) →
    locate? doc.bytes id = none ∧ locate? (q.apply doc.bytes) id = none

/-- In a clear document, with no `<` put in and `a` still a tag as written, no stray tag owns a
marker of an id that `a` does not carry. -/
theorem KeepsIds.not_stray {q : Patch} (keeps : doc.KeepsIds i a q) (clear : doc.Clear)
    (plain : Byte.less ∉ q.replacement) (remains : a.Remains i (q.apply doc.bytes)) {id : Bytes}
    (hid : QuotedText Byte.doubleQuote id) (other : ¬ a.Carries id) {k m : Nat}
    (mem : m ∈ Marker.offsets (q.apply doc.bytes) id) : ¬ doc.Stray q k m := by
  intro stray
  obtain ⟨t, owns⟩ := stray.owns
  obtain ⟨edited, u, v, split, width, carries⟩ := remains
  have there := Bytes.stands_of_mem_occurrences (List.mem_filter.1 mem).1
  rw [(keeps.stray clear plain k m stray).1, ← width, split] at owns
  rw [split] at there
  exact other (carries id (carries_of_owns hid owns there))

/-- In a clear document nothing spoils the ids of other elements, if no `<` is put in and `a`
remains a tag as written. -/
theorem KeepsIds.findsOthers {q : Patch} (keeps : doc.KeepsIds i a q) (within : q.Within doc.bytes)
    (stands : doc.Stands i (.opening a)) (clear : doc.Clear) (plain : Byte.less ∉ q.replacement)
    (remains : a.Remains i (q.apply doc.bytes)) : doc.FindsOthers i q where
  carried := by
    intro id k tag there ne carries noEquals only
    have spares := keeps.spares k _ there List.mem_cons_self ne
    have other : ¬ a.Carries id := fun also => ne (only i a stands also).symm
    obtain ⟨loc, located, start, -⟩ := located_of_clear clear there carries only noEquals
    obtain ⟨t, found, rfl⟩ := Option.map_eq_some_iff.1 located
    have before := (found_iff_unspoilt carries.quoted only).1 ⟨t, found, start⟩
    obtain ⟨place⟩ := carries.place
    obtain ⟨u, v, split, width⟩ := there.tag_moved within spares
    have mem := place.mem_offsets noEquals u v
    have owns := place.owns u v
    rw [← split, width] at mem owns
    exact (keeps.carried id k tag there ne carries only).2
      ⟨before, _, mem, ⟨_, owns⟩, fun m found k' stray =>
        absurd stray (keeps.not_stray clear plain remains carries.quoted other found)⟩
  absent := fun id hid absent => (keeps.absent id hid absent).2
    ⟨fun m _ k => clear.not_misread,
      fun m found k => keeps.not_stray clear plain remains hid (absent i a stands) found⟩

/-- What a patch spares remains. -/
theorem Stands.remains {q : Patch} (stands : doc.Stands i (.opening a))
    (within : q.Within doc.bytes) (fixed : q.moved i = i)
    (spares : q.Spares i (i + a.text.length)) : a.Remains i (q.apply doc.bytes) := by
  obtain ⟨u, v, split, width⟩ := stands.tag_moved within spares
  exact ⟨a, u, v, split, width.trans fixed, fun id carries => carries⟩

/-- An edit of the located tag leaves the ids of the other elements. -/
theorem keeps_tagEdit {P : Bytes → Prop} {id : Bytes} {t : OpenTag}
    (stands : doc.Stands i (.opening a))
    (here : ∃ loc, locate? doc.bytes id = some loc ∧ loc.start = i)
    (located : locateTag? doc.bytes id = some t) {patches : List Patch}
    (edit : TagEdit P doc.bytes t patches) :
    ∃ q : Patch, doc.bytes.patch patches = q.apply doc.bytes ∧ doc.KeepsIds i a q ∧
      (doc.Clear → Byte.less ∉ q.replacement → Byte.backslash ∉ q.replacement →
        doc.FindsOthers i q) := by
  cases edit.leavesOthers located with
  | inl idle =>
      have spares (k l : Nat) : (Patch.removal 0 0).Spares k l := .inr (Nat.zero_le k)
      have within : (Patch.removal 0 0).Within doc.bytes := ⟨Nat.le_refl _, Nat.zero_le _⟩
      have keeps := keepsIds stands within rfl fun k x _ _ _ => spares _ _
      refine ⟨.removal 0 0, ?_, keeps, fun clear plain _ => keeps.findsOthers within stands clear
        plain (stands.remains within rfl (spares _ _))⟩
      rw [idle, Patch.apply_eq]
      rfl
  | inr edits =>
      obtain ⟨q, edited, rfl, leaves⟩ := edits
      have patch := leaves.ofAttribute
      have inside := (sound_of_locateTag? located).inside
      have within : q.Within doc.bytes :=
        ⟨patch.le, Nat.le_trans patch.inBody (Nat.le_of_lt inside)⟩
      obtain ⟨marker, marked⟩ := marker_of_locateTag? located
      rw [tag_written stands here located] at patch edit marked
      obtain ⟨behind, spares⟩ := ofAttribute_spares stands patch
      have keeps := keepsIds stands within (if_pos behind) spares
      refine ⟨q, rfl, keeps, fun clear plain unescaped => ?_⟩
      obtain ⟨u, v, split, width⟩ := stands.split
      have remains : a.Remains i (q.apply doc.bytes) := by
        rw [split, width] at edit marked ⊢
        exact edit.remains marked unescaped
      exact keeps.findsOthers within stands clear plain remains

/-- An edit of an element's text leaves the ids of the other elements. -/
theorem Nested.keeps_setText (nested : doc.Nested 0 0) (stands : doc.Stands i (.opening a))
    {id new : Bytes} {old : Option Bytes}
    (here : ∃ loc, locate? doc.bytes id = some loc ∧ loc.start = i) {patches : List Patch}
    (h : Edit.setText doc.bytes id new old = .ok patches) :
    ∃ q : Patch, doc.bytes.patch patches = q.apply doc.bytes ∧ doc.KeepsIds i a q ∧
      (doc.Clear → doc.FindsOthers i q) := by
  obtain ⟨q, rfl, within, plain, behind, spares⟩ := nested.setText_spares stands here h
  have fixed : q.moved i = i := if_pos behind
  have keeps := keepsIds stands within fixed fun k x there less _ => spares k x there less
  have remains := stands.remains within fixed (spares i _ stands List.mem_cons_self)
  exact ⟨q, rfl, keeps, fun clear => keeps.findsOthers within stands clear plain remains⟩

end Forest

/-- The mutations of what an element holds: its attributes, classes, style and text. -/
def Mutation.isOfContent (m : Mutation) : Bool :=
  match m with
  | .updateText _ _ _ => true
  | m => m.isOfAttributes

/-- An accepted edit of the attributes, the classes, the style or the text of an element replaces
nothing of the tags of other elements, and the id of such an element is found in its tag, where
that was moved to, exactly if no tag is read in the new text that was not written. In a clear
document no such tag is read if no `<` is put in and, in an attribute, no backslash. -/
theorem Mutation.keeps_ids {doc : Forest} {m : Mutation} (ofContent : m.isOfContent = true)
    (nested : m.isOfAttributes = false → doc.Nested 0 0) {new : Bytes}
    (h : m.apply doc.bytes = .ok new) {i : Nat} {a : TagText} (stands : doc.Stands i (.opening a))
    (here : ∃ loc, locate? doc.bytes (utf8 m.elementId) = some loc ∧ loc.start = i) :
    ∃ q : Patch, new = q.apply doc.bytes ∧ doc.KeepsIds i a q ∧
      (doc.Clear → (m.isOfAttributes = true →
        Byte.less ∉ q.replacement ∧ Byte.backslash ∉ q.replacement) → doc.FindsOthers i q) := by
  obtain ⟨patches, planned, rfl⟩ := Mutation.apply_eq_ok.1 h
  by_cases ofAttributes : m.isOfAttributes = true
  · obtain ⟨t, located, edit⟩ := Mutation.tagEdit_of_plan ofAttributes planned
    obtain ⟨q, new, keeps, finds⟩ := Forest.keeps_tagEdit stands here located edit
    exact ⟨q, new, keeps, fun clear plain =>
      finds clear (plain ofAttributes).1 (plain ofAttributes).2⟩
  · cases m with
    | updateText id text old =>
        obtain ⟨q, new, keeps, finds⟩ := (nested rfl).keeps_setText stands here planned
        exact ⟨q, new, keeps, fun clear _ => finds clear⟩
    | _ => exact absurd ofContent ofAttributes

theorem isTagName_italic : IsTagName (utf8 "i") := by decide

theorem quotedText_a : QuotedText Byte.doubleQuote (utf8 "a") := .ofBytes (by decide)

theorem quotedText_b : QuotedText Byte.doubleQuote (utf8 "b") := .ofBytes (by decide)

/-- The tag `<i data-eid="a">`. -/
def italicTag : TagText := .ofId (utf8 "i") (utf8 "a") isTagName_italic quotedText_a

/-- The tag `<b data-eid="b">`. -/
def otherTag : TagText := .ofId (utf8 "b") (utf8 "b") isTagName_bold quotedText_b

/-- The document `<i data-eid="a">x</i><b data-eid="b">y</b>`. -/
def twoTagsDoc : Forest :=
  .paired italicTag rfl (.text (utf8 "x") (by decide) .nil) [] .nil
    (.paired otherTag rfl (.text (utf8 "y") (by decide) .nil) [] .nil .nil)

theorem twoTagsDoc_nested : twoTagsDoc.Nested 0 0 := by
  have letter {c : UInt8} (hc : Part.content.isPlain c = true) : Code 0 [c] 0 :=
    .byte hc (.nil 0)
  exact .paired (.text (letter (by decide)) (.nil 0))
    (.paired (.text (letter (by decide)) (.nil 0)) (.nil 0))

theorem placed_twoTagsDoc :
    Piece.placed 0 twoTagsDoc.pieces =
      [(0, .opening italicTag), (16, .text (utf8 "x") (by decide)),
        (17, .closing (utf8 "i") []), (21, .opening otherTag),
        (37, .text (utf8 "y") (by decide)), (38, .closing (utf8 "b") [])] :=
  rfl

theorem twoTagsDoc_clear : twoTagsDoc.Clear := by
  have each : ∀ x ∈ Piece.placed 0 twoTagsDoc.pieces, ∀ j < 42, x.1 < j →
      j < x.1 + x.2.bytes.length → (twoTagsDoc.bytes.drop j).head? ≠ some Byte.less := by
    decide +kernel
  rintro j ⟨k, x, stands, lower, upper⟩
  have bounds := (Piece.placed_bounds stands).2
  have width : 0 + (Piece.join twoTagsDoc.pieces).length = 42 := by decide +kernel
  exact each (k, x) stands j (by omega) lower upper

theorem twoTagsDoc_italic : twoTagsDoc.Stands 0 (.opening italicTag) := by
  simp [Forest.Stands, placed_twoTagsDoc]

theorem italicTag_not_carries : ¬ italicTag.Carries (utf8 "b") := by
  rintro ⟨gap, mem⟩
  have same := (Prod.mk.inj (List.mem_singleton.1 mem)).2
  injection same with name before after value
  exact absurd value (by decide)

theorem twoTagsDoc_only (k : Nat) (tag : TagText) (stands : twoTagsDoc.Stands k (.opening tag))
    (carries : tag.Carries (utf8 "b")) : k = 21 := by
  simp only [Forest.Stands, placed_twoTagsDoc, List.mem_cons, Prod.mk.injEq, Piece.opening.injEq,
    reduceCtorEq, and_false, false_or, List.not_mem_nil, or_false] at stands
  cases stands with
  | inl first =>
      rw [first.2] at carries
      exact absurd carries italicTag_not_carries
  | inr second => exact second.1

theorem text_edit_keeps_ids :
    (Mutation.updateText "a" "<u data-eid=\"b\">" none).apply twoTagsDoc.bytes =
        .ok (utf8 "<i data-eid=\"a\">&lt;u data-eid=\"b\"&gt;</i><b data-eid=\"b\">y</b>") ∧
      ∃ q : Patch,
        utf8 "<i data-eid=\"a\">&lt;u data-eid=\"b\"&gt;</i><b data-eid=\"b\">y</b>" =
          q.apply twoTagsDoc.bytes ∧
        twoTagsDoc.KeepsIds 0 italicTag q ∧ twoTagsDoc.FindsOthers 0 q := by
  have applied : (Mutation.updateText "a" "<u data-eid=\"b\">" none).apply twoTagsDoc.bytes =
      .ok (utf8 "<i data-eid=\"a\">&lt;u data-eid=\"b\"&gt;</i><b data-eid=\"b\">y</b>") := by
    decide +kernel
  have here : (locate? twoTagsDoc.bytes (utf8 "a")).map (·.start) = some 0 := by decide +kernel
  obtain ⟨loc, located, start⟩ := Option.map_eq_some_iff.1 here
  obtain ⟨q, written, keeps, ofText⟩ :=
    Mutation.keeps_ids rfl (fun _ => twoTagsDoc_nested) applied twoTagsDoc_italic
      ⟨loc, located, start⟩
  have finds := ofText twoTagsDoc_clear fun isAttribute => by cases isAttribute
  exact ⟨applied, q, written, keeps, finds⟩

/-- A title that holds the text of a tag takes the id of another element. -/
theorem title_takes_id :
    twoTagsDoc.Nested 0 0 ∧ twoTagsDoc.Stands 0 (.opening italicTag) ∧
      twoTagsDoc.Stands 21 (.opening otherTag) ∧ otherTag.Carries (utf8 "b") ∧
      (∀ k tag, twoTagsDoc.Stands k (.opening tag) → tag.Carries (utf8 "b") → k = 21) ∧
      ∃ new,
        (Mutation.setAttribute "a" "title" "<u data-eid=\"b\">").apply twoTagsDoc.bytes = .ok new ∧
          (locate? twoTagsDoc.bytes (utf8 "b")).map (·.openingTag) =
            some (utf8 "<b data-eid=\"b\">") ∧
          (locate? new (utf8 "b")).map (·.openingTag) = some (utf8 "<u data-eid=\"b\">") := by
  refine ⟨twoTagsDoc_nested, twoTagsDoc_italic, ?_, ⟨[Byte.space], List.mem_singleton_self _⟩,
    twoTagsDoc_only,
    utf8 "<i data-eid=\"a\" title='<u data-eid=\"b\">'>x</i><b data-eid=\"b\">y</b>",
    ?_, ?_, ?_⟩
  · simp [Forest.Stands, placed_twoTagsDoc]
  · decide +kernel
  · decide +kernel
  · decide +kernel

end MarkupEdit
