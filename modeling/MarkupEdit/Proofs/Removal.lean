import MarkupEdit.Proofs.ContentLocality

/-!
What is left when an element is taken away: the text in front of it and the text behind it, less
white space at the seam. Another element stands on one side of the seam as it did before.
-/

namespace MarkupEdit

namespace Bytes

theorem times_append_le (needle u s : Bytes) :
    times needle u + times needle s ≤ times needle (u ++ s) := by
  induction u with
  | nil => simp [times]
  | cons c t ih =>
      rw [List.cons_append, times, times]
      by_cases here : needle.isPrefixOf (c :: t) = true
      · have longer : c :: t <+: c :: (t ++ s) := List.prefix_append (c :: t) s
        rw [if_pos here, if_pos (List.isPrefixOf_iff_prefix.2
          ((List.isPrefixOf_iff_prefix.1 here).trans longer))]
        omega
      · rw [if_neg here]
        omega

theorem prefix_of_prefix_append {needle u s : Bytes} {c : UInt8} (hc : c ∉ needle)
    (h : needle <+: u ++ c :: s) : needle <+: u := by
  by_cases short : needle.length ≤ u.length
  · exact List.prefix_of_prefix_length_le h (List.prefix_append _ _) short
  · -- A longer one would hold the byte that stands behind `u`.
    exfalso
    apply hc
    have stands : needle[u.length]? = some c := by
      obtain ⟨r, same⟩ := h
      have inside : (needle ++ r)[u.length]? = needle[u.length]? :=
        List.getElem?_append_left (by omega)
      rw [← inside, same, List.getElem?_append_right (Nat.le_refl _), Nat.sub_self,
        List.getElem?_cons_zero]
    exact List.mem_of_getElem? stands

/-- A byte that a text does not hold stands in none of its places. -/
theorem times_split {needle : Bytes} (ne : needle ≠ []) {c : UInt8} (hc : c ∉ needle)
    (u s : Bytes) : times needle (u ++ c :: s) = times needle u + times needle s := by
  induction u with
  | nil =>
      have absent : ¬ needle.isPrefixOf (c :: s) = true := by
        intro here
        have := prefix_of_prefix_append (u := []) hc (List.isPrefixOf_iff_prefix.1 here)
        exact ne (List.prefix_nil.1 this)
      change times needle (c :: s) = 0 + times needle s
      rw [times, if_neg absent]
  | cons d t ih =>
      have same : needle.isPrefixOf (d :: (t ++ c :: s)) = needle.isPrefixOf (d :: t) := by
        rw [Bool.eq_iff_iff, List.isPrefixOf_iff_prefix, List.isPrefixOf_iff_prefix]
        constructor
        · exact prefix_of_prefix_append (u := d :: t) hc
        · intro here
          exact here.trans (List.prefix_append (d :: t) (c :: s))
      rw [List.cons_append, times, times, same, ih]
      omega

/-- A text is not begun where its first byte does not stand. -/
theorem times_skip {needle : Bytes} {d : UInt8} (first : needle.head? = some d) {u : Bytes}
    (hd : d ∉ u) (s : Bytes) : times needle (u ++ s) = times needle s := by
  induction u with
  | nil => rfl
  | cons c t ih =>
      have absent : ¬ needle.isPrefixOf (c :: (t ++ s)) = true := by
        intro here
        obtain ⟨r, split⟩ := List.head?_eq_some_iff.1 first
        have stands := List.isPrefixOf_iff_prefix.1 here
        rw [split, List.cons_prefix_cons] at stands
        exact hd (by rw [stands.1]; exact List.mem_cons_self)
      rw [List.cons_append, times, if_neg absent, ih fun mem => hd (List.mem_cons_of_mem c mem)]
      omega

/-- A text does not end where its last byte does not stand. -/
theorem times_trail {needle : Bytes} {d : UInt8} (last : needle.getLast? = some d) {s : Bytes}
    (hd : d ∉ s) (u : Bytes) : times needle (u ++ s) = times needle u := by
  have within {u : Bytes} (h : needle <+: u ++ s) : needle <+: u := by
    by_cases short : needle.length ≤ u.length
    · exact List.prefix_of_prefix_length_le h (List.prefix_append _ _) short
    · exfalso
      apply hd
      obtain ⟨r, same⟩ := h
      have inside : (needle ++ r)[needle.length - 1]? = needle[needle.length - 1]? :=
        List.getElem?_append_left (by omega)
      rw [List.getLast?_eq_getElem?, ← inside, same,
        List.getElem?_append_right (by omega)] at last
      exact List.mem_of_getElem? last
  induction u with
  | nil =>
      have absent : ∀ v, v <:+ s → times needle v = 0 := by
        intro v
        induction v with
        | nil => exact fun _ => rfl
        | cons c t ih =>
            intro tail
            have notHere : ¬ needle.isPrefixOf (c :: t) = true := by
              intro here
              have mem := (List.isPrefixOf_iff_prefix.1 here).subset (List.mem_of_getLast? last)
              exact hd (tail.subset mem)
            rw [times, if_neg notHere, ih ((List.suffix_cons c t).trans tail)]
      exact absent s (List.suffix_refl s)
  | cons c t ih =>
      have same : needle.isPrefixOf (c :: (t ++ s)) = needle.isPrefixOf (c :: t) := by
        rw [Bool.eq_iff_iff, List.isPrefixOf_iff_prefix, List.isPrefixOf_iff_prefix]
        exact ⟨within (u := c :: t), fun here => here.trans (List.prefix_append (c :: t) s)⟩
      rw [List.cons_append, times, times, same, ih]

end Bytes

namespace ElementText

variable (e : ElementText)

theorem exists_less : ∃ t, e.text = Byte.less :: t :=
  List.head?_eq_some_iff.1 (Scan.passes_markup e.markup).head

theorem exists_greater : ∃ t, e.text = t ++ [Byte.greater] := by
  have tagged : ∃ t, e.tag.text = t ++ [Byte.greater] := by
    rw [TagText.text, openTagText]
    cases e.tag.slashed with
    | true =>
        refine ⟨Byte.less :: (e.tag.name ++ (e.tag.attributes ++ [Byte.slash])), ?_⟩
        simp [tagEnding]
    | false =>
        refine ⟨Byte.less :: (e.tag.name ++ e.tag.attributes), ?_⟩
        simp [tagEnding]
  rw [text, tail]
  split
  · rw [List.append_nil]
    exact tagged
  · refine ⟨e.tag.text ++ (e.content ++ Byte.less :: Byte.slash :: (e.tag.name ++ e.gap)), ?_⟩
    simp [closeTagText]

/-- White space before an element ends before it. -/
theorem gap_before {gap q s r : Bytes} (hg : AllBlank gap)
    (same : q ++ (e.text ++ s) = gap ++ r) :
    ∃ q', q = gap ++ q' ∧ r = q' ++ (e.text ++ s) := by
  obtain ⟨q', split, rest⟩ | ⟨g, split, rest⟩ := List.append_eq_append_iff.1 same
  · obtain ⟨t, less⟩ := e.exists_less
    cases q' with
    | nil =>
        rw [List.append_nil] at split
        refine ⟨[], ?_, ?_⟩
        · rw [List.append_nil, split]
        · rw [List.nil_append, rest, List.nil_append]
    | cons c t' =>
        rw [less, List.cons_append, List.cons_append] at rest
        have blank := hg c (by rw [split]; simp)
        rw [← (List.cons.inj rest).1] at blank
        exact absurd blank (by decide)
  · exact ⟨g, split, rest⟩

/-- White space behind an element begins behind it. -/
theorem gap_behind {gap p q r : Bytes} (hg : AllBlank gap)
    (same : p ++ (e.text ++ q) = r ++ gap) :
    ∃ q', q = q' ++ gap ∧ r = p ++ (e.text ++ q') := by
  rw [← List.append_assoc] at same
  obtain ⟨t, greater⟩ := e.exists_greater
  obtain ⟨g, split, rest⟩ | ⟨q', split, rest⟩ := List.append_eq_append_iff.1 same
  · exact ⟨g, rest, by rw [split, List.append_assoc]⟩
  · cases empty : q' with
    | nil =>
        rw [empty, List.append_nil] at split
        rw [empty, List.nil_append] at rest
        exact ⟨[], by rw [rest, List.nil_append], by rw [← split, List.append_nil]⟩
    | cons c t' =>
        obtain ⟨init, last, rfl⟩ : ∃ init last, q' = init ++ [last] :=
          ⟨_, _, (List.dropLast_concat_getLast (by simp [empty])).symm⟩
        rw [greater, ← List.append_assoc, ← List.append_assoc] at split
        have final : Byte.greater = last := by
          have := congrArg List.getLast? split
          simpa using this
        have blank := hg last (by rw [rest]; simp)
        rw [← final] at blank
        exact absurd blank (by decide)

end ElementText

theorem isBlank_of_isIndent {c : UInt8} (h : Byte.isIndent c = true) : Byte.isBlank c = true := by
  simp only [Byte.isIndent, Bool.or_eq_true] at h
  simp only [Byte.isBlank, Bool.or_eq_true]
  exact .inl (.inl (.inl h))

theorem allBlank_indent (s : Bytes) : AllBlank (s.takeWhile Byte.isIndent) :=
  fun _ mem => isBlank_of_isIndent (List.all_eq_true.1 List.all_takeWhile _ mem)

theorem AllBlank.append {u v : Bytes} (hu : AllBlank u) (hv : AllBlank v) : AllBlank (u ++ v) := by
  intro c mem
  cases List.mem_append.1 mem with
  | inl mem => exact hu c mem
  | inr mem => exact hv c mem

theorem allBlank_lineBreak {s : Bytes} {width : Nat} (h : Edit.lineBreakWidth? s = some width) :
    AllBlank (s.take width) := by
  rw [Edit.lineBreakWidth?.eq_def] at h
  split at h
  · cases h
    exact .nil
  next c t =>
    split at h
    next feed =>
      cases h
      rw [feed]
      change AllBlank [Byte.lineFeed]
      decide
    next =>
      split at h
      next both =>
        cases h
        obtain ⟨u, rfl⟩ := List.head?_eq_some_iff.1 both.2
        rw [both.1]
        change AllBlank [Byte.carriageReturn, Byte.lineFeed]
        decide
      next => cases h

/-- Taking an element away leaves what is in front of it and behind it, less white space. -/
theorem removeLocated_apply {loc : Location} {p u r : Bytes} (start : loc.start = p.length)
    (stop : loc.stop = p.length + u.length) :
    ∃ p' gap gap' r', p = p' ++ gap ∧ r = gap' ++ r' ∧ AllBlank gap ∧ AllBlank gap' ∧
      (Edit.removeLocated (p ++ (u ++ r)) loc).apply (p ++ (u ++ r)) = p' ++ r' := by
  have behind : (p ++ (u ++ r)).drop loc.stop = r := by
    rw [stop, List.drop_length_add_append, List.drop_left]
  have whole : (Patch.removal loc.start loc.stop).apply (p ++ (u ++ r)) = p ++ r := by
    simp only [Patch.apply, Patch.removal, Bytes.splice, behind, List.nil_append, start,
      List.take_left]
  simp only [Edit.removeLocated, behind]
  split
  next => exact ⟨p, [], [], r, by simp, rfl, .nil, .nil, whole⟩
  next width found =>
    split
    next indented =>
      generalize line : (p ++ (u ++ r)).lineStart loc.start = first at indented
      have before := (lineStart_seam (p ++ (u ++ r)) loc.start).1
      rw [line] at before
      let trailing := r.takeWhile Byte.isIndent
      rw [← List.drop_drop, behind] at found
      refine ⟨p.take first, p.drop first, r.take (trailing.length + width),
        r.drop (trailing.length + width), (List.take_append_drop _ _).symm,
        (List.take_append_drop _ _).symm, ?_, ?_, ?_⟩
      · intro c mem
        rw [Bytes.slice, start, List.take_left] at indented
        exact isBlank_of_isIndent (List.all_eq_true.1 indented c mem)
      · have front : r.take trailing.length = trailing :=
          (List.prefix_iff_eq_take.1 (List.takeWhile_prefix Byte.isIndent)).symm
        rw [List.take_add, front]
        exact (allBlank_indent r).append (allBlank_lineBreak found)
      · simp only [Patch.apply, Patch.removal, Bytes.splice, List.nil_append]
        rw [List.take_append_of_le_length (by omega), Nat.add_assoc loc.stop, ← List.drop_drop,
          behind]
    next => exact ⟨p, [], [], r, by simp, rfl, .nil, .nil, whole⟩

end MarkupEdit
