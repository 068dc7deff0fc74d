import MarkupEdit.Text.Search

/-!
What is found lies within the text that was searched.
-/

namespace MarkupEdit.Bytes

theorem indexFrom?_bounds {needle : Bytes} {i j : Nat} {s : Bytes}
    (h : indexFrom? needle i s = some j) : i ≤ j ∧ j + needle.length ≤ i + s.length := by
  induction s generalizing i with
  | nil =>
      rw [indexFrom?] at h
      split at h
      · simp_all
      · simp at h
  | cons c t ih =>
      rw [indexFrom?] at h
      split at h
      next found =>
        have := (List.isPrefixOf_iff_prefix.1 found).length_le
        simp only [Option.some.injEq] at h
        omega
      next =>
        have := ih h
        simp only [List.length_cons]
        omega

end MarkupEdit.Bytes
