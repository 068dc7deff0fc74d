import MarkupEdit.Markup.Location
import MarkupEdit.Proofs.LooseTags
import MarkupEdit.Proofs.TextSearch

/-!
Which opening tag is taken for the owner of a marker. A tag owns an offset when one of its
attributes starts there; the owner found is the nearest one in front of the offset.
-/

namespace MarkupEdit

theorem Units.openTag?_eq_some_iff {text : Bytes} {i : Nat} {tag : OpenTag} :
    Units.openTag? text i = some tag ↔
      ∃ t, text.drop i = Byte.less :: t ∧ Scan.openTag? i t = some tag := by
  rw [Units.openTag?]
  constructor
  · intro h
    split at h
    · cases h
    next c t rest =>
      split at h
      next less => exact ⟨t, by rw [rest, less], h⟩
      · cases h
  · rintro ⟨t, rest, opened⟩
    rw [rest]
    simp only [if_true, opened]

theorem start_openTag? {i : Nat} {s : Bytes} {tag : OpenTag}
    (h : Scan.openTag? i s = some tag) : tag.start = i := by
  rw [Scan.openTag?.eq_def] at h
  split at h
  · cases h
  · split at h
    · dsimp only at h
      split at h
      · cases h
      · cases h
        rfl
    · cases h

/-- The tag that stands at offset `start` reaches beyond `marker`, where one of its attributes
starts. -/
structure Owns (text : Bytes) (start marker : Nat) (tag : OpenTag) : Prop where
  opens : Units.openTag? text start = some tag
  before : start < marker
  reaches : marker < tag.stop
  starts : ∃ a ∈ tag.attributes text, a.start = marker

theorem ownerAt?_eq_some_iff {text : Bytes} {start marker : Nat} {tag : OpenTag}
    (before : start < marker) :
    ownerAt? marker (Place.of text start) = some tag ↔ Owns text start marker tag := by
  have same : ∀ c t, text.drop start = c :: t →
      (Scan.openTag? start t = some tag → tag.attributesIn (c :: t) = tag.attributes text) := by
    intro c t rest h
    rw [OpenTag.attributes, start_openTag? h, rest]
  constructor
  · intro h
    simp only [ownerAt?, Place.of] at h
    split at h
    · cases h
    next c t rest =>
      split at h
      next less =>
        split at h
        · cases h
        next tag' opened =>
          split at h
          next owns =>
            cases h
            have attributes := same c t rest opened
            rw [attributes] at owns
            refine ⟨?_, before, owns.1, by simpa using owns.2⟩
            exact Units.openTag?_eq_some_iff.2 ⟨t, by rw [rest, less], opened⟩
          · cases h
      · cases h
  · rintro ⟨opens, -, reaches, starts⟩
    obtain ⟨t, rest, opened⟩ := Units.openTag?_eq_some_iff.1 opens
    have attributes := same _ t rest opened
    simp only [ownerAt?, Place.of, rest, if_true, opened]
    rw [attributes, if_pos ⟨reaches, by simpa using starts⟩]

/-- The owner of a marker is the nearest tag that owns it. -/
theorem owner?_eq_some_iff {text : Bytes} {marker : Nat} {tag : OpenTag} :
    owner? text marker = some tag ↔
      ∃ start, Owns text start marker tag ∧
        ∀ j tag', start < j → ¬ Owns text j marker tag' := by
  rw [owner?, Place.findSome?_backward fun i => rfl]
  constructor
  · rintro ⟨start, before, found, later⟩
    refine ⟨start, (ownerAt?_eq_some_iff before).1 found, fun j tag' hj owns => ?_⟩
    have := later j hj owns.before
    rw [(ownerAt?_eq_some_iff owns.before).2 owns] at this
    cases this
  · rintro ⟨start, owns, later⟩
    refine ⟨start, owns.before, (ownerAt?_eq_some_iff owns.before).2 owns, fun j hj before => ?_⟩
    cases found : ownerAt? marker (Place.of text j) with
    | none => rfl
    | some tag' => exact absurd ((ownerAt?_eq_some_iff before).1 found) (later j tag' hj)

theorem owner?_ne_none {text : Bytes} {start marker : Nat} {tag : OpenTag}
    (owns : Owns text start marker tag) : owner? text marker ≠ none := by
  intro absent
  have := Place.findSome?_backward_eq_none (fun i => rfl) absent owns.before
  rw [(ownerAt?_eq_some_iff owns.before).2 owns] at this
  cases this

theorem start_owner? {text : Bytes} {start marker : Nat} {tag : OpenTag}
    (owns : Owns text start marker tag) : tag.start = start := by
  obtain ⟨t, -, opened⟩ := Units.openTag?_eq_some_iff.1 owns.opens
  exact start_openTag? opened

theorem offsets_sorted (text id : Bytes) : (Marker.offsets text id).Pairwise (· < ·) :=
  (Bytes.occurrencesFrom_sorted _ _ _).filter _

/-- The tag found for an id owns one of its markers, and no other owner has an earlier marker or
stands nearer to that one. -/
theorem locateTag?_eq_some_iff {text id : Bytes} {tag : OpenTag} :
    locateTag? text id = some tag ↔
      ∃ m ∈ Marker.offsets text id, ∃ k, Owns text k m tag ∧
        ∀ m' ∈ Marker.offsets text id, ∀ k' tag', Owns text k' m' tag' →
          ¬ (m' < m ∨ m' = m ∧ k < k') := by
  have sorted := offsets_sorted text id
  rw [locateTag?, List.findSome?_eq_some_iff]
  constructor
  · rintro ⟨earlier, m, later, split, found, absent⟩
    obtain ⟨k, owns, nearest⟩ := owner?_eq_some_iff.1 found
    refine ⟨m, by simp [split], k, owns, fun m' mem k' tag' owns' => ?_⟩
    rintro (before | ⟨rfl, nearer⟩)
    · rw [split, List.mem_append, List.mem_cons] at mem
      rw [split, List.pairwise_append, List.pairwise_cons] at sorted
      rcases mem with mem | rfl | mem
      · exact owner?_ne_none owns' (absent m' mem)
      · omega
      · have := sorted.2.1.1 m' mem
        omega
    · exact nearest k' tag' nearer owns'
  · rintro ⟨m, mem, k, owns, first⟩
    obtain ⟨earlier, later, split⟩ := List.append_of_mem mem
    rw [split, List.pairwise_append] at sorted
    refine ⟨earlier, m, later, split, owner?_eq_some_iff.2 ⟨k, owns, ?_⟩, fun m' mem' => ?_⟩
    · exact fun k' tag' nearer owns' => first m mem k' tag' owns' (.inr ⟨rfl, nearer⟩)
    · cases found : owner? text m' with
      | none => rfl
      | some tag' =>
          obtain ⟨k', owns', -⟩ := owner?_eq_some_iff.1 found
          have before := sorted.2.2 m' mem' m List.mem_cons_self
          exact absurd (.inl before) (first m' (by simp [split, mem']) k' tag' owns')

/-- A tag that is located at an offset is the one that is read there. -/
theorem locateTag?_of_start {text id : Bytes} {i : Nat}
    (h : (locateTag? text id).map (·.start) = some i) :
    locateTag? text id = Units.openTag? text i := by
  obtain ⟨found, located, start⟩ := Option.map_eq_some_iff.1 h
  obtain ⟨m, -, k, owns, -⟩ := locateTag?_eq_some_iff.1 located
  obtain rfl : k = i := (start_owner? owns).symm.trans start
  rw [located, owns.opens]

namespace LooseTag.Stands

variable {tag : LooseTag} (stands : tag.Stands) (p s : Bytes)

include stands

theorem openTag?_in :
    Units.openTag? (p ++ (tag.text ++ s)) p.length = some (tag.reading p.length) :=
  openTag?_in_context tag.isName tag.attributes_markup stands.bounded p s

theorem attributes_in :
    (tag.reading p.length).attributes (p ++ (tag.text ++ s)) =
      itemAttributes (p.length + 1 + tag.name.length) tag.items := by
  have start : (tag.reading p.length).start = p.length := rfl
  rw [OpenTag.attributes, start, List.drop_left, stands.attributesIn_text]

end LooseTag.Stands

namespace TagText

theorem openTag?_in (tag : TagText) (p s : Bytes) :
    Units.openTag? (p ++ (tag.text ++ s)) p.length = some (tag.reading p.length) :=
  tag.stands_loose.openTag?_in p s

theorem attributes_in (tag : TagText) (p s : Bytes) :
    (tag.reading p.length).attributes (p ++ (tag.text ++ s)) = tag.written p.length :=
  tag.stands_loose.attributes_in p s

end TagText

theorem itemAttributes_append (i : Nat) (earlier later : List SpacedItem) :
    itemAttributes i (earlier ++ later) =
      itemAttributes i earlier ++ itemAttributes (i + (itemsText earlier).length) later := by
  induction earlier generalizing i with
  | nil => rfl
  | cons x rest ih =>
      obtain ⟨gap, item⟩ := x
      simp only [List.cons_append, itemAttributes, ih, itemsText, List.length_append,
        List.append_assoc, Nat.add_assoc]

theorem itemsText_append (earlier later : List SpacedItem) :
    itemsText (earlier ++ later) = itemsText earlier ++ itemsText later := by
  induction earlier with
  | nil => rfl
  | cons x rest ih => simp only [List.cons_append, itemsText, ih, List.append_assoc]

theorem mem_itemAttributes {i : Nat} {items : List SpacedItem} {a : Attribute} :
    a ∈ itemAttributes i items ↔
      ∃ earlier gap item later, items = earlier ++ (gap, item) :: later ∧
        item.attribute? (i + (itemsText earlier).length + gap.length) = some a := by
  constructor
  · intro h
    induction items generalizing i with
    | nil => cases h
    | cons x rest ih =>
        obtain ⟨gap, item⟩ := x
        rw [itemAttributes, List.mem_append, Option.mem_toList] at h
        rcases h with h | h
        · exact ⟨[], gap, item, rest, rfl, h⟩
        · obtain ⟨earlier, gap', item', later, rfl, found⟩ := ih h
          refine ⟨(gap, item) :: earlier, gap', item', later, rfl, ?_⟩
          rw [← found, itemsText, List.length_append, List.length_append]
          congr 1
          omega
  · rintro ⟨earlier, gap, item, later, rfl, found⟩
    rw [itemAttributes_append, itemAttributes, found]
    simp

theorem start_attribute? {i : Nat} {item : Item} {a : Attribute}
    (h : item.attribute? i = some a) : a.start = i := by
  cases item <;> cases h <;> rfl

end MarkupEdit
