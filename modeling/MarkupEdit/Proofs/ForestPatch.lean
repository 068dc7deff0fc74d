import MarkupEdit.Proofs.AttributeEdits
import MarkupEdit.Proofs.ElementSeams
import MarkupEdit.Proofs.Forest

/-!
A document as written after one of its ranges was replaced. The pieces that the patch spares still
stand, each at the place where it was moved to; a tag that is read anywhere else is a stray one.
The element that carries an id is found again exactly where no stray tag has an earlier or a nearer
marker of the id.
-/

namespace MarkupEdit

theorem locateTag?_eq_none_iff {text id : Bytes} :
    locateTag? text id = none ↔ ∀ m ∈ Marker.offsets text id, ∀ k t, ¬ Owns text k m t := by
  rw [locateTag?, List.findSome?_eq_none_iff]
  constructor
  · exact fun absent m mem k t owns => owner?_ne_none owns (absent m mem)
  · intro absent m mem
    cases found : owner? text m with
    | none => rfl
    | some t =>
        obtain ⟨k, owns, -⟩ := owner?_eq_some_iff.1 found
        exact absurd owns (absent m mem k t)

/-- The tag at `k` owns a marker of the id, and none of the `bad` owners has an earlier one or
stands nearer to that one. -/
def Unspoilt (text id : Bytes) (k : Nat) (bad : Nat → Nat → Prop) : Prop :=
  ∃ m ∈ Marker.offsets text id, (∃ t, Owns text k m t) ∧
    ∀ m' ∈ Marker.offsets text id, ∀ k', bad k' m' → ¬ (m' < m ∨ m' = m ∧ k < k')

/-- Where all owners of the markers of an id but the one at `k` are bad ones, the tag at `k` is
found if and only if it is unspoilt. -/
theorem locateTag?_iff_unspoilt {text id : Bytes} {k : Nat} {bad : Nat → Nat → Prop}
    (owners : ∀ m ∈ Marker.offsets text id, ∀ k' t, Owns text k' m t → k' = k ∨ bad k' m)
    (owning : ∀ k' m, bad k' m → ∃ t, Owns text k' m t) :
    (∃ t, locateTag? text id = some t ∧ t.start = k) ↔ Unspoilt text id k bad := by
  constructor
  · rintro ⟨t, found, start⟩
    obtain ⟨m, mem, k', owns, first⟩ := locateTag?_eq_some_iff.1 found
    have same : k' = k := (start_owner? owns).symm.trans start
    rw [same] at owns first
    refine ⟨m, mem, ⟨t, owns⟩, fun m' mem' k' spoils => ?_⟩
    obtain ⟨t', owns'⟩ := owning k' m' spoils
    exact first m' mem' k' t' owns'
  · rintro ⟨m, mem, ⟨t, owns⟩, unspoilt⟩
    cases found : locateTag? text id with
    | none => exact absurd owns (locateTag?_eq_none_iff.1 found m mem k t)
    | some t' =>
        obtain ⟨m', mem', k', owns', first⟩ := locateTag?_eq_some_iff.1 found
        have nearest := first m mem k t owns
        have same : k' = k := by
          cases owners m' mem' k' t' owns' with
          | inl same => exact same
          | inr spoils =>
              have := unspoilt m' mem' k' spoils
              omega
        exact ⟨t', rfl, (start_owner? owns').trans same⟩

theorem slice_opens {text w : Bytes} {a : Nat} (ne : w ≠ [])
    (h : text.slice a (a + w.length) = w) :
    ∃ u v, text = u ++ (w ++ v) ∧ u.length = a := by
  have pos := List.length_pos_iff.2 ne
  have width := congrArg List.length h
  rw [Bytes.slice, List.length_drop, List.length_take] at width
  refine ⟨text.take a, text.drop (a + w.length), ?_, ?_⟩
  · have split : text.drop a = w ++ text.drop (a + w.length) := by
      rw [Bytes.slice, List.drop_take, Nat.add_sub_cancel_left] at h
      rw [← List.drop_drop, ← List.take_append_drop w.length (text.drop a), h]
      simp
    rw [← split, List.take_append_drop]
  · rw [List.length_take]
    omega

/-- The opening tag of a location is what was found. -/
theorem openingTag_location {text id : Bytes} {t : OpenTag} (found : locateTag? text id = some t) :
    (t.location text).openingTag = text.slice t.start t.stop := by
  have within : t.stop ≤ (t.location text).stop := (sound_of_locateTag? found).location.within
  change (text.slice t.start (t.location text).stop).take (t.stop - t.start) = _
  rw [Bytes.slice, Bytes.slice, ← List.drop_take, List.take_take, Nat.min_eq_left within]

/-- A byte of the patched text is new, or one of the text that was moved there. -/
theorem Patch.byte_apply {text : Bytes} {q : Patch} (within : q.Within text) {k : Nat} {c : UInt8}
    (h : (q.apply text)[k]? = some c) :
    c ∈ q.replacement ∨ ∃ p, q.moved p = k ∧ text[p]? = some c := by
  have le := within.le
  have width : (text.take q.start).length = q.start := by
    rw [List.length_take, Nat.min_eq_left (Nat.le_trans le within.inside)]
  rw [Patch.apply_eq, List.append_assoc] at h
  by_cases before : k < q.start
  · rw [List.getElem?_append_left (by omega), List.getElem?_take, if_pos before] at h
    exact .inr ⟨k, if_pos before, h⟩
  · rw [List.getElem?_append_right (by omega), width] at h
    by_cases new : k - q.start < q.replacement.length
    · rw [List.getElem?_append_left new] at h
      exact .inl (List.mem_of_getElem? h)
    · rw [List.getElem?_append_right (by omega), List.getElem?_drop] at h
      refine .inr ⟨_, ?_, h⟩
      rw [Patch.moved, if_neg (by omega)]
      omega

namespace Piece

theorem join_cons (x : Piece) (xs : List Piece) : join (x :: xs) = x.bytes ++ join xs :=
  List.flatMap_cons

theorem join_append (xs ys : List Piece) : join (xs ++ ys) = join xs ++ join ys :=
  List.flatMap_append

theorem placed_append (i : Nat) (xs ys : List Piece) :
    placed i (xs ++ ys) = placed i xs ++ placed (i + (join xs).length) ys := by
  induction xs generalizing i with
  | nil => rfl
  | cons x xs ih =>
      rw [List.cons_append, placed, ih, placed, List.cons_append, join_cons, List.length_append,
        Nat.add_assoc]

theorem placed_bounds {i k : Nat} {x : Piece} {xs : List Piece} (h : (k, x) ∈ placed i xs) :
    i ≤ k ∧ k + x.bytes.length ≤ i + (join xs).length := by
  obtain ⟨u, v, split, rfl⟩ := mem_placed h
  rw [split, List.length_append, List.length_append]
  omega

/-- Of two pieces of a row, one stands behind the other. -/
theorem placed_apart {i j k : Nat} {x y : Piece} {xs : List Piece} (hx : (j, x) ∈ placed i xs)
    (hy : (k, y) ∈ placed i xs) (ne : (j, x) ≠ (k, y)) :
    j + x.bytes.length ≤ k ∨ k + y.bytes.length ≤ j := by
  induction xs generalizing i with
  | nil => cases hx
  | cons z zs ih =>
      rw [placed] at hx hy
      cases List.mem_cons.1 hx with
      | inl first =>
          cases List.mem_cons.1 hy with
          | inl same => exact absurd (first.trans same.symm) ne
          | inr later =>
              cases first
              exact .inl (placed_bounds later).1
      | inr later =>
          cases List.mem_cons.1 hy with
          | inl first =>
              cases first
              exact .inr (placed_bounds later).1
          | inr later' => exact ih later later'

end Piece

namespace Forest

variable {doc : Forest} {q : Patch} {k m : Nat} {id : Bytes} {x : Piece} {tag : TagText}

theorem Stands.bytes (stands : doc.Stands k x) :
    ∃ u v, doc.bytes = u ++ (x.bytes ++ v) ∧ u.length = k := by
  obtain ⟨u, v, split, rfl⟩ := Piece.mem_placed stands
  exact ⟨u, v, split, (Nat.zero_add _).symm⟩

/-- What a patch spares stands where it was moved to. -/
theorem Stands.moved (stands : doc.Stands k x) (ne : x.bytes ≠ []) (within : q.Within doc.bytes)
    (spares : q.Spares k (k + x.bytes.length)) :
    ∃ u v, q.apply doc.bytes = u ++ (x.bytes ++ v) ∧ u.length = q.moved k := by
  obtain ⟨u, v, split, rfl⟩ := stands.bytes
  have kept := spares.keeps within (Nat.le_add_right _ _)
  rw [Patch.Keeps, Nat.add_sub_cancel_left, split, slice_append, ← split] at kept
  exact slice_opens ne kept

/-- An opening tag of the document stands there, moved with what is around it. -/
def Kept (doc : Forest) (q : Patch) (k : Nat) : Prop :=
  ∃ j tag, doc.Stands j (.opening tag) ∧ q.Spares j (j + tag.text.length) ∧ q.moved j = k

/-- A tag that owns a marker is read where no tag of the document was kept. -/
structure Stray (doc : Forest) (q : Patch) (k m : Nat) : Prop where
  apart : ¬ doc.Kept q k
  owns : ∃ t, Owns (q.apply doc.bytes) k m t

theorem text_ne_nil (tag : TagText) : tag.text ≠ [] := List.cons_ne_nil _ _

theorem Stands.tag_moved (stands : doc.Stands k (.opening tag)) (within : q.Within doc.bytes)
    (spares : q.Spares k (k + tag.text.length)) :
    ∃ u v, q.apply doc.bytes = u ++ (tag.text ++ v) ∧ u.length = q.moved k :=
  stands.moved (text_ne_nil tag) within spares

/-- Where a tag of the document was kept, an owner of a marker is that tag, and carries the id. -/
theorem Kept.carries (kept : doc.Kept q k) (within : q.Within doc.bytes)
    (hid : QuotedText Byte.doubleQuote id) {t : OpenTag} (owns : Owns (q.apply doc.bytes) k m t)
    (mem : m ∈ Marker.offsets (q.apply doc.bytes) id) :
    ∃ j tag, doc.Stands j (.opening tag) ∧ tag.Carries id ∧ q.moved j = k := by
  obtain ⟨j, tag, stands, spares, moved⟩ := kept
  obtain ⟨u, v, split, width⟩ := stands.tag_moved within spares
  have there := Bytes.stands_of_mem_occurrences (List.mem_filter.1 mem).1
  rw [split, ← moved, ← width] at owns
  rw [split] at there
  exact ⟨j, tag, stands, carries_of_owns hid owns there, moved⟩

section

variable (hid : QuotedText Byte.doubleQuote id)
  (only : ∀ k' tag', doc.Stands k' (.opening tag') → tag'.Carries id → k' = k)

include hid only

/-- The one tag that carries an id is found unless a misread tag spoils it. -/
theorem found_iff_unspoilt :
    (∃ t, locateTag? doc.bytes id = some t ∧ t.start = k) ↔
      Unspoilt doc.bytes id k doc.Misread := by
  refine locateTag?_iff_unspoilt ?_ fun k' m' misread => misread.owns
  intro m mem k' t owns
  cases stands_or_inside owns with
  | inl other =>
      obtain ⟨tag', stands'⟩ := other
      exact .inl (only k' tag' stands' (carries_of_offsets hid stands' owns mem))
  | inr inside => exact .inr ⟨inside, t, owns⟩

/-- The one tag that carries an id is found again after a patch unless a stray one spoils it. -/
theorem found_again_iff_unspoilt (within : q.Within doc.bytes) :
    (∃ t, locateTag? (q.apply doc.bytes) id = some t ∧ t.start = q.moved k) ↔
      Unspoilt (q.apply doc.bytes) id (q.moved k) (doc.Stray q) := by
  refine locateTag?_iff_unspoilt ?_ fun k' m' stray => stray.owns
  intro m mem k' t owns
  by_cases kept : doc.Kept q k'
  · obtain ⟨j, tag', stands', carries', moved⟩ := kept.carries within hid owns mem
    rw [only j tag' stands' carries'] at moved
    exact .inl moved.symm
  · exact .inr ⟨kept, t, owns⟩

end

section

variable (hid : QuotedText Byte.doubleQuote id)
  (absent : ∀ k tag, doc.Stands k (.opening tag) → ¬ tag.Carries id)

include hid absent

/-- An id that no tag carries is found only in a misread tag. -/
theorem absent_iff :
    locateTag? doc.bytes id = none ↔
      ∀ m ∈ Marker.offsets doc.bytes id, ∀ k, ¬ doc.Misread k m := by
  rw [locateTag?_eq_none_iff]
  constructor
  · rintro none m mem k ⟨-, t, owns⟩
    exact none m mem k t owns
  · intro none m mem k t owns
    cases stands_or_inside owns with
    | inl other =>
        obtain ⟨tag, stands⟩ := other
        exact absent k tag stands (carries_of_offsets hid stands owns mem)
    | inr inside => exact none m mem k ⟨inside, t, owns⟩

/-- An id that no tag carries is found after a patch only in a stray tag. -/
theorem absent_again_iff (within : q.Within doc.bytes) :
    locateTag? (q.apply doc.bytes) id = none ↔
      ∀ m ∈ Marker.offsets (q.apply doc.bytes) id, ∀ k, ¬ doc.Stray q k m := by
  rw [locateTag?_eq_none_iff]
  constructor
  · rintro none m mem k ⟨-, t, owns⟩
    exact none m mem k t owns
  · intro none m mem k t owns
    by_cases kept : doc.Kept q k
    · obtain ⟨j, tag, stands, carries, -⟩ := kept.carries within hid owns mem
      exact absent j tag stands carries
    · exact none m mem k ⟨kept, t, owns⟩

end

/-- Where a tag as written is found, it is the opening tag of the location. -/
theorem openingTag_written {text : Bytes} {t : OpenTag} (found : locateTag? text id = some t)
    {u v : Bytes} (split : text = u ++ (tag.text ++ v)) (start : t.start = u.length) :
    (t.location text).openingTag = tag.text := by
  obtain ⟨m, -, k, owns, -⟩ := locateTag?_eq_some_iff.1 found
  have opens := owns.opens
  rw [← start_owner? owns, start, split, tag.openTag?_in] at opens
  have reading := Option.some.inj opens
  rw [openingTag_location found, ← reading, tag.stop_reading, split]
  exact slice_append u tag.text v

/-- In a clear document, with no `<` in what is put in, only the tag that a patch changed can be a
stray one. -/
theorem Stray.eq_changed {i : Nat} (stray : doc.Stray q k m) (within : q.Within doc.bytes)
    (stands : doc.Stands i (.opening tag)) (fixed : q.moved i = i)
    (spares : ∀ j x, doc.Stands j x → Byte.less ∈ x.bytes → j ≠ i →
      q.Spares j (j + x.bytes.length))
    (clear : doc.Clear) (plain : Byte.less ∉ q.replacement) :
    k = i ∧ ¬ q.Spares i (i + tag.text.length) := by
  obtain ⟨t, owns⟩ := stray.owns
  obtain ⟨r, less, opened⟩ := Units.openTag?_eq_some_iff.1 owns.opens
  -- The `<` of the stray tag is one of the document, and there it is the first byte of its piece.
  cases Patch.byte_apply within (drop_eq_cons less).1 with
  | inl new => exact absurd new plain
  | inr old =>
      obtain ⟨p, moved, stood⟩ := old
      obtain ⟨inside, -⟩ := List.getElem?_eq_some_iff.1 stood
      obtain ⟨j, x, mem, lower, upper⟩ := Piece.exists_placed 0 inside
      rw [Nat.zero_add] at lower upper
      have first : j = p := by
        apply Nat.le_antisymm lower
        apply Nat.le_of_not_lt
        intro later
        apply clear p ⟨j, x, mem, later, upper⟩
        rw [List.head?_drop, stood]
      subst first
      have there : doc.Stands j x := mem
      have ne : x.bytes ≠ [] := by
        intro empty
        rw [empty] at upper
        exact absurd upper (Nat.lt_irrefl _)
      have head : Byte.less ∈ x.bytes := by
        obtain ⟨u, v, split, width⟩ := there.bytes
        rw [split, ← width, List.getElem?_append_right (Nat.le_refl _), Nat.sub_self,
          List.getElem?_append_left (List.length_pos_iff.2 ne)] at stood
        exact List.mem_of_getElem? stood
      by_cases changed : j = i
      · subst changed
        refine ⟨moved.symm.trans fixed, fun spares => ?_⟩
        exact stray.apart ⟨j, tag, stands, spares, moved⟩
      · obtain ⟨u, v, split, width⟩ := there.moved ne within (spares j x there head changed)
        rw [split, ← moved, ← width, List.drop_left] at less
        obtain ⟨written, rfl⟩ := Piece.eq_opening ne less opened
        exact absurd ⟨j, written, there, spares j _ there head changed, moved⟩ stray.apart

end Forest

end MarkupEdit
