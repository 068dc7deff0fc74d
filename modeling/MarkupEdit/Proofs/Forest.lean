import MarkupEdit.Proofs.Carrier

/-!
Documents as written: forests of text, comments and elements. A marker is taken for the one of
a tag of the document, or for one of a tag that is read from a `<` inside a tag or a comment;
the element that carries an id is located exactly where no such misreading comes first.
-/

namespace MarkupEdit

/-- What stands in a document side by side once its elements are laid open. -/
inductive Piece where
  | text (body : Bytes) (plain : Byte.less ∉ body)
  | comment (body : Bytes)
  | opening (tag : TagText)
  | closing (name gap : Bytes)

namespace Piece

def bytes : Piece → Bytes
  | text body _ => body
  | comment body => commentText body
  | opening tag => tag.text
  | closing name gap => closeTagText name gap

def join (pieces : List Piece) : Bytes := pieces.flatMap bytes

/-- The pieces with the offsets where they stand, the first one at offset `i`. -/
def placed (i : Nat) : List Piece → List (Nat × Piece)
  | [] => []
  | x :: rest => (i, x) :: placed (i + x.bytes.length) rest

theorem mem_placed {i k : Nat} {x : Piece} {pieces : List Piece} (h : (k, x) ∈ placed i pieces) :
    ∃ u v, join pieces = u ++ (x.bytes ++ v) ∧ k = i + u.length := by
  induction pieces generalizing i with
  | nil => cases h
  | cons y rest ih =>
      rcases List.mem_cons.1 h with same | h
      · cases same
        exact ⟨[], join rest, rfl, rfl⟩
      · obtain ⟨u, v, split, width⟩ := ih h
        refine ⟨y.bytes ++ u, v, ?_, ?_⟩
        · rw [join, List.flatMap_cons, ← join, split, List.append_assoc]
        · rw [width, List.length_append, Nat.add_assoc]

/-- Every offset of a row of pieces belongs to one of them. -/
theorem exists_placed (i : Nat) {k : Nat} {pieces : List Piece} (hk : k < (join pieces).length) :
    ∃ j x, (j, x) ∈ placed i pieces ∧ j ≤ i + k ∧ i + k < j + x.bytes.length := by
  induction pieces generalizing i k with
  | nil => cases hk
  | cons y rest ih =>
      rw [join, List.flatMap_cons, List.length_append, ← join] at hk
      by_cases inside : k < y.bytes.length
      · exact ⟨i, y, List.mem_cons_self, Nat.le_add_right i k, by omega⟩
      · obtain ⟨j, x, mem, lower, upper⟩ := ih (i + y.bytes.length)
          (k := k - y.bytes.length) (by omega)
        exact ⟨j, x, List.mem_cons_of_mem _ mem, by omega, by omega⟩

theorem eq_opening {x : Piece} {i : Nat} {s t : Bytes} {tag : OpenTag} (ne : x.bytes ≠ [])
    (less : x.bytes ++ s = Byte.less :: t) (opens : Scan.openTag? i t = some tag) :
    ∃ written, x = opening written := by
  have letter : ∃ c r, t = c :: r ∧ Byte.isLetter c = true := by
    rw [Scan.openTag?.eq_def] at opens
    split at opens
    · cases opens
    next c r =>
      split at opens
      next letter => exact ⟨c, r, rfl, letter⟩
      · cases opens
  obtain ⟨c, r, rfl, letter⟩ := letter
  cases x with
  | text body plain =>
      obtain ⟨d, body, rfl⟩ := List.exists_cons_of_ne_nil ne
      obtain ⟨rfl, -⟩ := List.cons.inj less
      exact absurd List.mem_cons_self plain
  | comment body =>
      obtain ⟨rfl, -⟩ := List.cons.inj (List.cons.inj less).2
      exact absurd letter (by decide)
  | opening written => exact ⟨written, rfl⟩
  | closing name gap =>
      obtain ⟨rfl, -⟩ := List.cons.inj (List.cons.inj less).2
      exact absurd letter (by decide)

end Piece

inductive Forest where
  | nil
  | text (body : Bytes) (plain : Byte.less ∉ body) (rest : Forest)
  | comment (body : Bytes) (unclosed : ¬ utf8 "-->" <:+: body) (rest : Forest)
  | single (tag : TagText) (alone : tag.closesItself = true) (rest : Forest)
  | paired (tag : TagText) (opens : tag.closesItself = false) (inner : Forest) (gap : Bytes)
      (blank : AllBlank gap) (rest : Forest)

namespace Forest

def pieces : Forest → List Piece
  | nil => []
  | text body plain rest => .text body plain :: rest.pieces
  | comment body _ rest => .comment body :: rest.pieces
  | single tag _ rest => .opening tag :: rest.pieces
  | paired tag _ inner gap _ rest =>
      .opening tag :: (inner.pieces ++ .closing tag.name gap :: rest.pieces)

def bytes (doc : Forest) : Bytes := Piece.join doc.pieces

def Stands (doc : Forest) (k : Nat) (x : Piece) : Prop := (k, x) ∈ Piece.placed 0 doc.pieces

/-- The offset is one behind the first byte of a piece. -/
def Inside (doc : Forest) (k : Nat) : Prop :=
  ∃ j x, doc.Stands j x ∧ j < k ∧ k < j + x.bytes.length

/-- A tag that owns a marker is read where none is written. -/
structure Misread (doc : Forest) (k m : Nat) : Prop where
  inside : doc.Inside k
  owns : ∃ t, Owns doc.bytes k m t

variable {doc : Forest} {k m : Nat} {id : Bytes} {tag : TagText} {t : OpenTag}

theorem Stands.split (stands : doc.Stands k (.opening tag)) :
    ∃ u v, doc.bytes = u ++ (tag.text ++ v) ∧ k = u.length := by
  obtain ⟨u, v, split, width⟩ := Piece.mem_placed stands
  exact ⟨u, v, split, by rw [width, Nat.zero_add]⟩

/-- A tag that owns a marker is one of the document, or is read inside a piece. -/
theorem stands_or_inside (owns : Owns doc.bytes k m t) :
    (∃ tag, doc.Stands k (.opening tag)) ∨ doc.Inside k := by
  obtain ⟨r, less, opened⟩ := Units.openTag?_eq_some_iff.1 owns.opens
  have inText : k < doc.bytes.length := by
    apply Nat.lt_of_not_le
    intro h
    rw [List.drop_eq_nil_of_le h] at less
    cases less
  obtain ⟨j, x, mem, lower, upper⟩ := Piece.exists_placed 0 inText
  rw [Nat.zero_add] at lower upper
  rcases Nat.eq_or_lt_of_le lower with rfl | lower
  · left
    obtain ⟨u, v, split, width⟩ := Piece.mem_placed mem
    rw [Nat.zero_add] at width
    have bytes : doc.bytes = u ++ (x.bytes ++ v) := split
    rw [bytes, width, List.drop_left] at less
    have ne : x.bytes ≠ [] := by
      intro empty
      rw [empty, List.length_nil] at upper
      omega
    obtain ⟨tag, rfl⟩ := Piece.eq_opening ne less opened
    exact ⟨tag, mem⟩
  · exact .inr ⟨j, x, mem, lower, upper⟩

theorem eq_reading (stands : doc.Stands k (.opening tag)) (owns : Owns doc.bytes k m t) :
    t = tag.reading k := by
  obtain ⟨u, v, split, rfl⟩ := stands.split
  have opens := owns.opens
  rw [split, tag.openTag?_in] at opens
  exact (Option.some.inj opens).symm

theorem carries_of_offsets (hid : QuotedText Byte.doubleQuote id)
    (stands : doc.Stands k (.opening tag)) (owns : Owns doc.bytes k m t)
    (mem : m ∈ Marker.offsets doc.bytes id) : tag.Carries id := by
  obtain ⟨u, v, split, rfl⟩ := stands.split
  have there := Bytes.stands_of_mem_occurrences (List.mem_filter.1 mem).1
  rw [split] at owns there
  exact carries_of_owns hid owns there

theorem located_of_unspoilt (stands : doc.Stands k (.opening tag)) (carries : tag.Carries id)
    (only : ∀ k' tag', doc.Stands k' (.opening tag') → tag'.Carries id → k' = k)
    (mem : m ∈ Marker.offsets doc.bytes id) (owns : Owns doc.bytes k m t)
    (unspoilt : ∀ m' ∈ Marker.offsets doc.bytes id, ∀ k', doc.Misread k' m' →
      ¬ (m' < m ∨ m' = m ∧ k < k')) :
    ∃ loc, locate? doc.bytes id = some loc ∧ loc.start = k ∧ loc.tag = tag.name := by
  have found : ∃ t', locateTag? doc.bytes id = some t' := by
    apply Option.ne_none_iff_exists'.1
    intro absent
    exact owner?_ne_none owns (List.findSome?_eq_none_iff.1 absent m mem)
  obtain ⟨t', found⟩ := found
  obtain ⟨m', mem', k', owns', first⟩ := locateTag?_eq_some_iff.1 found
  have nearest := first m mem k t owns
  -- What is found is no tag of another element, which would carry the id too, nor a misread one.
  have same : k' = k := by
    rcases stands_or_inside owns' with ⟨tag', stands'⟩ | inside
    · exact only k' tag' stands' (carries_of_offsets carries.quoted stands' owns' mem')
    · have := unspoilt m' mem' k' ⟨inside, t', owns'⟩
      omega
  subst same
  refine ⟨t'.location doc.bytes, Option.map_eq_some_iff.2 ⟨t', found, rfl⟩,
    start_owner? owns', ?_⟩
  rw [eq_reading stands owns']
  rfl

/-- No `<` stands inside a tag or a comment. -/
def Clear (doc : Forest) : Prop :=
  ∀ j, doc.Inside j → (doc.bytes.drop j).head? ≠ some Byte.less

theorem Clear.not_misread (clear : doc.Clear) : ¬ doc.Misread k m := by
  rintro ⟨inside, t, owns⟩
  obtain ⟨r, less⟩ := owns.less
  exact clear k inside (by rw [less]; rfl)

/-- In a clear document the one element that carries an id without `=` is located. -/
theorem located_of_clear (clear : doc.Clear) (stands : doc.Stands k (.opening tag))
    (carries : tag.Carries id)
    (only : ∀ k' tag', doc.Stands k' (.opening tag') → tag'.Carries id → k' = k)
    (plain : Byte.equals ∉ id) :
    ∃ loc, locate? doc.bytes id = some loc ∧ loc.start = k ∧ loc.tag = tag.name := by
  obtain ⟨place⟩ := carries.place
  obtain ⟨u, v, split, width⟩ := stands.split
  have mem := place.mem_offsets plain u v
  have owns := place.owns u v
  rw [← split, ← width] at mem owns
  exact located_of_unspoilt stands carries only mem owns fun m' _ k' misread =>
    absurd misread clear.not_misread

/-- The one element that carries an id is located, unless a tag read inside some tag or comment
has an earlier marker of the id, or stands nearer to the marker of the element. -/
theorem carrier_located_iff (stands : doc.Stands k (.opening tag)) (carries : tag.Carries id)
    (only : ∀ k' tag', doc.Stands k' (.opening tag') → tag'.Carries id → k' = k) :
    (∃ loc, locate? doc.bytes id = some loc ∧ loc.start = k ∧ loc.tag = tag.name) ↔
      ∃ m ∈ Marker.offsets doc.bytes id, (∃ t, Owns doc.bytes k m t) ∧
        ∀ m' ∈ Marker.offsets doc.bytes id, ∀ k', doc.Misread k' m' →
          ¬ (m' < m ∨ m' = m ∧ k < k') := by
  constructor
  · rintro ⟨loc, located, start, -⟩
    obtain ⟨t, found, rfl⟩ := Option.map_eq_some_iff.1 located
    obtain ⟨m, mem, j, owns, first⟩ := locateTag?_eq_some_iff.1 found
    have same : j = k := (start_owner? owns).symm.trans start
    subst same
    refine ⟨m, mem, ⟨t, owns⟩, fun m' mem' k' misread => ?_⟩
    obtain ⟨t', owns'⟩ := misread.owns
    exact first m' mem' k' t' owns'
  · rintro ⟨m, mem, ⟨t, owns⟩, unspoilt⟩
    exact located_of_unspoilt stands carries only mem owns unspoilt

/-- The tag `<b data-eid="x">`. -/
def boldTag : TagText :=
  .ofId (utf8 "b") (utf8 "x") (by decide) (.ofBytes (by decide))

/-- The tag `<code title='<b data-eid="x">'>`. -/
def codeTag : TagText :=
  .ofQuoted (utf8 "code") Byte.singleQuote (utf8 "title") boldTag.text (by decide) rfl
    (by decide) (.ofBytes (by decide))

theorem boldTag_carries : boldTag.Carries (utf8 "x") := ⟨[Byte.space], List.mem_singleton_self _⟩

theorem codeTag_not_carries : ¬ codeTag.Carries (utf8 "x") := by
  rintro ⟨gap, mem⟩
  have same := (Prod.mk.inj (List.mem_singleton.1 mem)).2
  injection same with name
  exact absurd name (by decide)

/-- The document `<code title='<b data-eid="x">'>a</code><b data-eid="x">b</b>`. -/
def quotingDoc : Forest :=
  .paired codeTag rfl (.text (utf8 "a") (by decide) .nil) [] .nil
    (.paired boldTag rfl (.text (utf8 "b") (by decide) .nil) [] .nil .nil)

theorem placed_quotingDoc :
    Piece.placed 0 quotingDoc.pieces =
      [(0, .opening codeTag), (31, .text (utf8 "a") (by decide)), (32, .closing (utf8 "code") []),
        (39, .opening boldTag), (55, .text (utf8 "b") (by decide)), (56, .closing (utf8 "b") [])] :=
  rfl

theorem quotingDoc_bold : quotingDoc.Stands 39 (.opening boldTag) := by
  simp [Stands, placed_quotingDoc]

theorem quotingDoc_only (k : Nat) (tag : TagText) (stands : quotingDoc.Stands k (.opening tag))
    (carries : tag.Carries (utf8 "x")) : k = 39 := by
  simp only [Stands, placed_quotingDoc, List.mem_cons, Prod.mk.injEq, Piece.opening.injEq,
    reduceCtorEq, and_false, false_or, List.not_mem_nil, or_false] at stands
  rcases stands with ⟨-, rfl⟩ | ⟨rfl, -⟩
  · exact absurd carries codeTag_not_carries
  · rfl

theorem quoted_marker_taken :
    quotingDoc.Stands 39 (.opening boldTag) ∧ boldTag.Carries (utf8 "x") ∧
      (∀ k tag, quotingDoc.Stands k (.opening tag) → tag.Carries (utf8 "x") → k = 39) ∧
      ¬ ∃ loc, locate? quotingDoc.bytes (utf8 "x") = some loc ∧ loc.start = 39 ∧
        loc.tag = boldTag.name := by
  refine ⟨quotingDoc_bold, boldTag_carries, quotingDoc_only, ?_⟩
  rintro ⟨loc, located, start, -⟩
  have taken : (locate? quotingDoc.bytes (utf8 "x")).map (·.start) = some 13 := by decide +kernel
  rw [located, Option.map_some, start] at taken
  exact absurd taken (by decide)

/-- The document `<b data-eid="x">b</b><code title='<b data-eid="x">'>a</code>`. -/
def quotedLaterDoc : Forest :=
  .paired boldTag rfl (.text (utf8 "b") (by decide) .nil) [] .nil
    (.paired codeTag rfl (.text (utf8 "a") (by decide) .nil) [] .nil .nil)

theorem placed_quotedLaterDoc :
    Piece.placed 0 quotedLaterDoc.pieces =
      [(0, .opening boldTag), (16, .text (utf8 "b") (by decide)), (17, .closing (utf8 "b") []),
        (21, .opening codeTag), (52, .text (utf8 "a") (by decide)),
        (53, .closing (utf8 "code") [])] :=
  rfl

theorem quotedLaterDoc_only (k : Nat) (tag : TagText)
    (stands : quotedLaterDoc.Stands k (.opening tag)) (carries : tag.Carries (utf8 "x")) :
    k = 0 := by
  simp only [Stands, placed_quotedLaterDoc, List.mem_cons, Prod.mk.injEq, Piece.opening.injEq,
    reduceCtorEq, and_false, false_or, List.not_mem_nil, or_false] at stands
  rcases stands with ⟨rfl, -⟩ | ⟨-, rfl⟩
  · rfl
  · exact absurd carries codeTag_not_carries

theorem quoted_later_unspoilt :
    ∃ m ∈ Marker.offsets quotedLaterDoc.bytes (utf8 "x"),
      (∃ t, Owns quotedLaterDoc.bytes 0 m t) ∧
        ∀ m' ∈ Marker.offsets quotedLaterDoc.bytes (utf8 "x"), ∀ k', quotedLaterDoc.Misread k' m' →
          ¬ (m' < m ∨ m' = m ∧ 0 < k') := by
  have stands : quotedLaterDoc.Stands 0 (.opening boldTag) := by
    simp [Stands, placed_quotedLaterDoc]
  have taken : (locate? quotedLaterDoc.bytes (utf8 "x")).map (fun loc => (loc.start, loc.tag)) =
      some (0, utf8 "b") := by
    decide +kernel
  obtain ⟨loc, located, same⟩ := Option.map_eq_some_iff.1 taken
  obtain ⟨start, name⟩ := Prod.mk.inj same
  exact (carrier_located_iff stands boldTag_carries quotedLaterDoc_only).1
    ⟨loc, located, start, name⟩

end Forest

end MarkupEdit
