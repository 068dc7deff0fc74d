import MarkupEdit.Proofs.TagSeams

/-!
Where a text in UTF-8 can be cut. Offsets count bytes, and a character may have several; an
offset is a boundary if what stands before it and what stands behind it are texts again. A seam of
a text is a boundary, and so are the two ends of any part of it that is a text.
-/

namespace MarkupEdit

/-- The bytes are the UTF-8 form of a string. -/
def IsText (b : Bytes) : Prop := ∃ s : String, b = utf8 s

theorem isText_utf8 (s : String) : IsText (utf8 s) := ⟨s, rfl⟩

theorem isText_iff {b : Bytes} : IsText b ↔ (ByteArray.mk b.toArray).IsValidUTF8 := by
  constructor
  · intro h
    obtain ⟨s, rfl⟩ := h
    exact s.isValidUTF8
  · intro valid
    exact ⟨⟨_, valid⟩, rfl⟩

namespace IsText

theorem nil : IsText [] := isText_utf8 ""

theorem append {u v : Bytes} (hu : IsText u) (hv : IsText v) : IsText (u ++ v) := by
  obtain ⟨s, rfl⟩ := hu
  obtain ⟨t, rfl⟩ := hv
  rw [← utf8_append]
  exact isText_utf8 _

theorem ascii {c : UInt8} (h : c < 0x80) : IsText [c] := by
  have small : c.toNat < 128 := UInt8.lt_iff_toNat_lt.1 h
  have valid : UInt32.isValidChar c.toUInt32 := by
    left
    simp only [UInt8.toNat_toUInt32]
    omega
  let d : Char := ⟨c.toUInt32, valid⟩
  have width : d.utf8Size = 1 := by
    rw [Char.utf8Size_eq_one_iff]
    change c.toUInt32 ≤ 127
    rw [UInt32.le_iff_toNat_le, UInt8.toNat_toUInt32]
    change c.toNat ≤ 127
    omega
  have alone := ByteArray.isValidUTF8_empty.push width
  have same : d.toUInt8 = c := by simp [Char.toUInt8, d]
  rw [same] at alone
  exact isText_iff.2 alone

theorem cons {c : UInt8} (h : c < 0x80) {u : Bytes} (hu : IsText u) : IsText (c :: u) :=
  (ascii h).append hu

theorem ofAscii {u : Bytes} (h : ∀ c ∈ u, c < 0x80) : IsText u := by
  induction u with
  | nil => exact nil
  | cons c t ih =>
      exact cons (h c List.mem_cons_self) (ih fun d mem => h d (List.mem_cons_of_mem c mem))

end IsText

/-- The offset is between two characters of a text, or at one of its ends. -/
structure Boundary (text : Bytes) (i : Nat) : Prop where
  le : i ≤ text.length
  front : IsText (text.take i)
  back : IsText (text.drop i)

theorem isText_slice_iff (s : String) {i j : Nat} (le : i ≤ j) (inside : j ≤ (utf8 s).length) :
    IsText ((utf8 s).slice i j) ↔
      i = j ∨ String.Pos.Raw.IsValid s ⟨i⟩ ∧ String.Pos.Raw.IsValid s ⟨j⟩ := by
  have part : ByteArray.mk ((utf8 s).slice i j).toArray = s.toByteArray.extract i j := by
    apply ByteArray.ext
    apply Array.toList_inj.1
    simp [utf8, Bytes.slice, List.drop_take]
  have valid := @String.Pos.Raw.isValidUTF8_extract_iff s ⟨i⟩ ⟨j⟩
    (by simpa [String.Pos.Raw.le_iff] using le)
    (by simpa [String.Pos.Raw.le_iff, utf8, ← String.size_toByteArray] using inside)
  rw [isText_iff, part, valid]
  simp

/-- The boundaries of a text are the valid positions of the string. -/
theorem boundary_iff {s : String} {i : Nat} :
    Boundary (utf8 s) i ↔ String.Pos.Raw.IsValid s ⟨i⟩ := by
  have width : (utf8 s).length = s.utf8ByteSize := String.size_toByteArray
  constructor
  · intro h
    have front := (isText_slice_iff s (Nat.zero_le i) h.le).1 h.front
    cases front with
    | inl zero =>
        rw [← zero]
        exact String.Pos.Raw.isValid_zero
    | inr valid => exact valid.2
  · intro valid
    have le : i ≤ (utf8 s).length := width ▸ valid.le_utf8ByteSize
    have last : String.Pos.Raw.IsValid s ⟨(utf8 s).length⟩ := by
      rw [width]
      exact String.Pos.Raw.isValid_rawEndPos
    have front := (isText_slice_iff s (Nat.zero_le i) le).2
      (.inr ⟨String.Pos.Raw.isValid_zero, valid⟩)
    have back := (isText_slice_iff s le (Nat.le_refl _)).2 (.inr ⟨valid, last⟩)
    rw [Bytes.slice, List.take_length] at back
    exact ⟨le, front, back⟩

namespace IsText

variable {text : Bytes} (ht : IsText text)

include ht

/-- Both ends of a part that is a text are boundaries. -/
theorem boundaries {i j : Nat} (lt : i < j) (inside : j ≤ text.length)
    (part : IsText (text.slice i j)) : Boundary text i ∧ Boundary text j := by
  obtain ⟨s, rfl⟩ := ht
  cases (isText_slice_iff s (Nat.le_of_lt lt) inside).1 part with
  | inl same => omega
  | inr valid => exact ⟨boundary_iff.2 valid.1, boundary_iff.2 valid.2⟩

theorem slice {i j : Nat} (hi : Boundary text i) (hj : Boundary text j) :
    IsText (text.slice i j) := by
  by_cases le : i ≤ j
  · obtain ⟨s, rfl⟩ := ht
    exact (isText_slice_iff s le hj.le).2 (.inr ⟨boundary_iff.1 hi, boundary_iff.1 hj⟩)
  · have none : text.slice i j = [] := by
      rw [Bytes.slice, List.drop_eq_nil_iff, List.length_take]
      omega
    rw [none]
    exact nil

theorem ends : Boundary text 0 ∧ Boundary text text.length := by
  refine ⟨⟨Nat.zero_le _, nil, ht⟩, ⟨Nat.le_refl _, ?_, ?_⟩⟩
  · rwa [List.take_length]
  · rw [List.drop_length]
    exact nil

theorem boundary_of_ascii {i : Nat} {c : UInt8} (stands : text[i]? = some c) (ascii : c < 0x80) :
    Boundary text i ∧ Boundary text (i + 1) := by
  obtain ⟨inside, rfl⟩ := List.getElem?_eq_some_iff.1 stands
  refine ht.boundaries (Nat.lt_succ_self i) inside ?_
  have alone : text.slice i (i + 1) = [text[i]] := by
    rw [Bytes.slice, List.drop_take, Nat.add_sub_cancel_left, List.drop_eq_getElem_cons inside]
    rfl
  rw [alone]
  exact .ascii ascii

end IsText

/-- A seam of a text is a boundary. -/
theorem Seam.boundary {text : Bytes} {i : Nat} (h : Seam text i) (ht : IsText text) :
    Boundary text i := by
  cases h with
  | first => exact ht.ends.1
  | last => exact ht.ends.2
  | here stands ascii => exact (ht.boundary_of_ascii stands ascii).1
  | behind stands ascii => exact (ht.boundary_of_ascii stands ascii).2

/-- Two texts are parted at a boundary of the whole. -/
theorem IsText.boundary_append {u v : Bytes} (hu : IsText u) (hv : IsText v) :
    Boundary (u ++ v) u.length := by
  refine ⟨by simp, ?_, ?_⟩
  · rwa [List.take_left]
  · rwa [List.drop_left]

namespace IsText

/-- What a text goes on with behind a text is a text. -/
theorem right {u v : Bytes} (h : IsText (u ++ v)) (hu : IsText u) : IsText v := by
  by_cases empty : u.length = 0
  · rwa [List.length_eq_zero_iff.1 empty] at h
  · have part : (u ++ v).slice 0 u.length = u := by
      rw [Bytes.slice, List.drop_zero, List.take_left]
    have stop : Boundary (u ++ v) u.length :=
      (h.boundaries (by omega) (by simp) (part.symm ▸ hu)).2
    have back := stop.back
    rwa [List.drop_left] at back

/-- What a text begins with before a text is a text. -/
theorem left {u v : Bytes} (h : IsText (u ++ v)) (hv : IsText v) : IsText u := by
  by_cases empty : v.length = 0
  · rwa [List.length_eq_zero_iff.1 empty, List.append_nil] at h
  · have part : (u ++ v).slice u.length (u ++ v).length = v := by
      rw [Bytes.slice, List.take_length, List.drop_left]
    have start : Boundary (u ++ v) u.length :=
      (h.boundaries (by rw [List.length_append]; omega) (Nat.le_refl _) (part.symm ▸ hv)).1
    have front := start.front
    rwa [List.take_left] at front

/-- An ASCII byte parts a text into two texts. -/
theorem around_ascii {u v : Bytes} {c : UInt8} (h : IsText (u ++ c :: v)) (ascii : c < 0x80) :
    IsText u ∧ IsText v := by
  have stands : (u ++ c :: v)[u.length]? = some c := by
    rw [List.getElem?_append_right (Nat.le_refl _), Nat.sub_self, List.getElem?_cons_zero]
  obtain ⟨here, behind⟩ := h.boundary_of_ascii stands ascii
  have front := here.front
  have back := behind.back
  rw [List.take_left] at front
  rw [List.drop_length_add_append, List.drop_one, List.tail_cons] at back
  exact ⟨front, back⟩

theorem tail_ascii {c : UInt8} {v : Bytes} (h : IsText (c :: v)) (ascii : c < 0x80) : IsText v :=
  (around_ascii (u := []) h ascii).2

/-- A text that stands in a text stands between boundaries. -/
theorem stands {text needle : Bytes} (ht : IsText text) (hn : IsText needle) (ne : needle ≠ [])
    {i : Nat} (here : needle <+: text.drop i) :
    Boundary text i ∧ Boundary text (i + needle.length) := by
  have width := List.length_pos_iff.2 ne
  have inside : i + needle.length ≤ text.length := by
    have := here.length_le
    rw [List.length_drop] at this
    omega
  refine ht.boundaries (by omega) inside ?_
  have part : text.slice i (i + needle.length) = needle := by
    rw [Bytes.slice, List.drop_take, Nat.add_sub_cancel_left]
    exact (List.prefix_iff_eq_take.1 here).symm
  rwa [part]

end IsText

/-- The offsets between which a part of a text may be cut out or replaced. -/
structure Cut (text : Bytes) (start stop : Nat) : Prop where
  le : start ≤ stop
  start : Boundary text start
  stop : Boundary text stop

theorem Cut.inside {text : Bytes} {i j : Nat} (h : Cut text i j) : j ≤ text.length := h.stop.le

theorem Cut.part {text : Bytes} {i j : Nat} (h : Cut text i j) (ht : IsText text) :
    IsText (text.slice i j) :=
  ht.slice h.start h.stop

/-- What is cut out of a part lies in the text where the part does. -/
theorem Cut.nested {text : Bytes} {i j k l : Nat} (h : Cut text i j)
    (inner : Cut (text.slice i j) k l) : Cut text (i + k) (i + l) := by
  have width : (text.slice i j).length = j - i := Bytes.length_slice h.inside
  have le := h.le
  have boundary {k : Nat} (hk : Boundary (text.slice i j) k) : Boundary text (i + k) := by
    have short := hk.le
    have inside := h.inside
    refine ⟨by omega, ?_, ?_⟩
    · have front := h.start.front.append hk.front
      rw [Bytes.slice, List.drop_take, List.take_take, Nat.min_eq_left (by omega)] at front
      rwa [List.take_add]
    · have back := hk.back.append h.stop.back
      rw [Bytes.slice, List.drop_drop] at back
      have bound : i + k ≤ (text.take j).length := by
        rw [List.length_take]
        omega
      rwa [← List.drop_append_of_le_length bound, List.take_append_drop] at back
  exact ⟨by have := inner.le; omega, boundary inner.start, boundary inner.stop⟩

theorem Cut.splice {text : Bytes} {i j : Nat} (h : Cut text i j) {new : Bytes}
    (hn : IsText new) : IsText (text.splice i j new) :=
  h.start.front.append (hn.append h.stop.back)

end MarkupEdit
