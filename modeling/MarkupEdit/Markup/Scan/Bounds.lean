import MarkupEdit.Text.SearchBounds
import MarkupEdit.Markup.Scan

/-!
Every unit ends behind the place where it was begun and within the text that was given. The
bounds of the functions that call each other are proved together, by their common induction.
-/

namespace MarkupEdit.Scan

theorem quotedEnd_bounds {quote : UInt8} {i j : Nat} {s : Bytes}
    (h : quotedEnd quote i s = some j) : i < j ∧ j ≤ i + s.length := by
  fun_induction quotedEnd quote i s with
  | case1 => simp at h
  | case2 => simp at h
  | case3 i d u ih =>
      have := ih h
      simp only [List.length_cons]
      omega
  | case4 =>
      simp only [Option.some.injEq] at h
      simp only [List.length_cons]
      omega
  | case5 i c t _ _ ih =>
      have := ih h
      simp only [List.length_cons]
      omega

theorem declarationEnd_bounds {i j : Nat} {s : Bytes} (h : declarationEnd i s = some j) :
    i < j ∧ j ≤ i + s.length := by
  rw [declarationEnd] at h
  split at h
  · obtain ⟨k, found, rfl⟩ := Option.map_eq_some_iff.1 h
    have := Bytes.indexFrom?_bounds found
    have closing : (utf8 "-->").length = 3 := rfl
    simp only [List.length_drop] at this
    omega
  · obtain ⟨k, found, rfl⟩ := Option.map_eq_some_iff.1 h
    have := Bytes.indexFrom?_bounds found
    simp only [List.length_singleton] at this
    omega

theorem closeTag_bounds {i : Nat} {s : Bytes} {close : CloseTag}
    (h : CloseTag.after? i s = some close) : i < close.stop ∧ close.stop ≤ i + s.length := by
  simp only [CloseTag.after?] at h
  split at h
  · simp at h
  next c t tail =>
    split at h
    · have width := congrArg List.length tail
      have := (List.takeWhile_prefix (l := s) isNameByte).length_le
      simp only [List.length_drop, List.length_cons] at width
      cases h
      simp only
      omega
    · simp at h

theorem length_pos_of_head? {t : Bytes} {b : UInt8} (h : t.head? = some b) : 0 < t.length := by
  cases t with
  | nil => simp at h
  | cons => simp

private theorem bounds :
    (∀ i s j, templateEnd i s = some j → i < j ∧ j ≤ i + s.length) ∧
    (∀ i depth s j, blockEnd i depth s = some j → i < j ∧ j ≤ i + s.length) ∧
    (∀ start s j, elementEnd start s = some j →
      start + 1 < j ∧ j ≤ start + 1 + s.length) ∧
    (∀ start s tag, openTag? start s = some tag →
      start + 1 < tag.stop ∧ tag.stop ≤ start + 1 + s.length) ∧
    (∀ i s r, bodyEnd? i s = some r →
      i ≤ r.1 ∧ r.1 + (if r.2 then 2 else 1) ≤ i + s.length) ∧
    (∀ i name depth s j, contentEnd i name depth s = some j →
      i < j ∧ j ≤ i + s.length) := by
  apply templateEnd.mutual_induct
  all_goals
    intros
    rename_i h
    first
      | rw [templateEnd] at h
      | rw [blockEnd] at h
      | rw [elementEnd] at h
      | rw [openTag?] at h
      | rw [bodyEnd?] at h
      | rw [contentEnd] at h
    grind [→ quotedEnd_bounds, → declarationEnd_bounds, → closeTag_bounds,
      → length_pos_of_head?, OpenTag.stop]

theorem templateEnd_bounds {i j : Nat} {s : Bytes} (h : templateEnd i s = some j) :
    i < j ∧ j ≤ i + s.length :=
  bounds.1 i s j h

theorem blockEnd_bounds {i depth j : Nat} {s : Bytes} (h : blockEnd i depth s = some j) :
    i < j ∧ j ≤ i + s.length :=
  bounds.2.1 i depth s j h

theorem elementEnd_bounds {start j : Nat} {s : Bytes} (h : elementEnd start s = some j) :
    start + 1 < j ∧ j ≤ start + 1 + s.length :=
  bounds.2.2.1 start s j h

theorem openTag?_bounds {start : Nat} {s : Bytes} {tag : OpenTag}
    (h : openTag? start s = some tag) :
    start + 1 < tag.stop ∧ tag.stop ≤ start + 1 + s.length :=
  bounds.2.2.2.1 start s tag h

theorem bodyEnd?_bounds {i : Nat} {s : Bytes} {r : Nat × Bool} (h : bodyEnd? i s = some r) :
    i ≤ r.1 ∧ r.1 + (if r.2 then 2 else 1) ≤ i + s.length :=
  bounds.2.2.2.2.1 i s r h

theorem contentEnd_bounds {i depth j : Nat} {name s : Bytes}
    (h : contentEnd i name depth s = some j) : i < j ∧ j ≤ i + s.length :=
  bounds.2.2.2.2.2 i name depth s j h

end MarkupEdit.Scan
