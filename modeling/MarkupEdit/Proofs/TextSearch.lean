import Mathlib.Data.List.Infix
import MarkupEdit.Text.Place
import MarkupEdit.Text.SearchBounds

/-!
What the searches of texts find. A text that stands in another one exactly once is found there
and nowhere else; the places found come in order; a backward search answers for the last place
that has an answer.
-/

namespace MarkupEdit.Bytes

/-- The number of places where a text that is not empty stands, those that overlap included. -/
def times (needle : Bytes) : Bytes → Nat
  | [] => 0
  | c :: t => (if needle.isPrefixOf (c :: t) then 1 else 0) + times needle t

theorem times_le_append (needle u s : Bytes) : times needle s ≤ times needle (u ++ s) := by
  induction u with
  | nil => exact Nat.le_refl _
  | cons c t ih =>
      rw [List.cons_append, times]
      omega

theorem times_le_front (needle u s : Bytes) : times needle u ≤ times needle (u ++ s) := by
  induction u with
  | nil => exact Nat.zero_le _
  | cons c t ih =>
      have here : needle.isPrefixOf (c :: t) = true → needle.isPrefixOf (c :: (t ++ s)) = true := by
        intro h
        have longer : c :: t <+: c :: t ++ s := List.prefix_append _ _
        exact List.isPrefixOf_iff_prefix.2 ((List.isPrefixOf_iff_prefix.1 h).trans longer)
      rw [List.cons_append, times, times]
      split
      next h =>
        rw [if_pos (here h)]
        omega
      next => omega

theorem times_le_context (needle p u s : Bytes) :
    times needle u ≤ times needle (p ++ (u ++ s)) :=
  Nat.le_trans (times_le_front needle u s) (times_le_append needle p _)

theorem times_pos {needle : Bytes} (ne : needle ≠ []) (u s : Bytes) :
    0 < times needle (u ++ (needle ++ s)) := by
  apply Nat.lt_of_lt_of_le _ (times_le_append needle u _)
  obtain ⟨c, t, rfl⟩ := List.exists_cons_of_ne_nil ne
  have here : (c :: t).isPrefixOf (c :: (t ++ s)) = true :=
    List.isPrefixOf_iff_prefix.2 (List.prefix_append (c :: t) s)
  rw [List.cons_append, times, if_pos here]
  omega

theorem occurrencesFrom_eq_nil {needle s : Bytes} (h : times needle s = 0) (i : Nat) :
    occurrencesFrom needle i s = [] := by
  induction s generalizing i with
  | nil => rw [occurrencesFrom]
  | cons c t ih =>
      rw [times] at h
      split at h
      · omega
      next absent => rw [occurrencesFrom, if_neg absent, ih (by omega)]

theorem occurrencesFrom_once {needle : Bytes} (ne : needle ≠ []) {u s : Bytes}
    (once : times needle (u ++ (needle ++ s)) = 1) (i : Nat) :
    occurrencesFrom needle i (u ++ (needle ++ s)) = [i + u.length] := by
  induction u generalizing i with
  | nil =>
      obtain ⟨c, t, rfl⟩ := List.exists_cons_of_ne_nil ne
      have here : (c :: t).isPrefixOf (c :: (t ++ s)) = true :=
        List.isPrefixOf_iff_prefix.2 (List.prefix_append (c :: t) s)
      rw [List.nil_append, List.cons_append, times, if_pos here] at once
      have later : times (c :: t) s = 0 := by
        have := times_le_append (c :: t) t s
        omega
      rw [List.nil_append, List.cons_append, occurrencesFrom, if_pos here]
      simp only [List.length_cons, Nat.add_sub_cancel, List.drop_left]
      rw [occurrencesFrom_eq_nil later]
      rfl
  | cons c t ih =>
      have more := times_pos ne t s
      rw [List.cons_append, times] at once
      have absent : ¬ needle.isPrefixOf (c :: (t ++ (needle ++ s))) = true := by
        intro here
        rw [if_pos here] at once
        omega
      rw [if_neg absent, Nat.zero_add] at once
      rw [List.cons_append, occurrencesFrom, if_neg absent, ih once, List.length_cons]
      congr 1
      omega

theorem occurrences_once {needle : Bytes} (ne : needle ≠ []) {u s : Bytes}
    (once : times needle (u ++ (needle ++ s)) = 1) :
    occurrences (u ++ (needle ++ s)) needle = [u.length] := by
  rw [occurrences, occurrencesFrom_once ne once, Nat.zero_add]

/-- The first of the places where a text stands, seen from what stands in front of it alone. -/
theorem occurrencesFrom_first {needle : Bytes} (ne : needle ≠ []) {u : Bytes}
    (once : times needle (u ++ needle) = 1) (s : Bytes) (i : Nat) :
    ∃ later, occurrencesFrom needle i (u ++ (needle ++ s)) = (i + u.length) :: later := by
  induction u generalizing i with
  | nil =>
      obtain ⟨c, t, rfl⟩ := List.exists_cons_of_ne_nil ne
      have here : (c :: t).isPrefixOf (c :: (t ++ s)) = true :=
        List.isPrefixOf_iff_prefix.2 (List.prefix_append (c :: t) s)
      rw [List.nil_append, List.cons_append, occurrencesFrom, if_pos here]
      exact ⟨_, rfl⟩
  | cons c t ih =>
      have more := times_pos ne t []
      rw [List.append_nil] at more
      rw [List.cons_append, times] at once
      have absent : ¬ needle.isPrefixOf (c :: (t ++ (needle ++ s))) = true := by
        intro here
        have longer : c :: (t ++ needle) <+: c :: (t ++ (needle ++ s)) := ⟨s, by simp⟩
        have inside : needle <+: c :: (t ++ needle) :=
          List.prefix_of_prefix_length_le (List.isPrefixOf_iff_prefix.1 here) longer (by
            simp only [List.length_cons, List.length_append]
            omega)
        rw [if_pos (List.isPrefixOf_iff_prefix.2 inside)] at once
        omega
      have once' : times needle (t ++ needle) = 1 := by
        split at once
        · omega
        · omega
      obtain ⟨later, found⟩ := ih once' (i + 1)
      refine ⟨later, ?_⟩
      rw [List.cons_append, occurrencesFrom, if_neg absent, found, List.length_cons]
      congr 1
      omega

theorem mem_occurrencesFrom {needle s : Bytes} {i m : Nat}
    (h : m ∈ occurrencesFrom needle i s) : i ≤ m ∧ needle <+: s.drop (m - i) := by
  fun_induction occurrencesFrom needle i s with
  | case1 => simp at h
  | case2 i c t here ih =>
      rcases List.mem_cons.1 h with rfl | h
      · rw [Nat.sub_self]
        exact ⟨Nat.le_refl _, List.isPrefixOf_iff_prefix.1 here⟩
      · obtain ⟨le, stands⟩ := ih h
        rw [List.drop_drop] at stands
        rw [show m - i = needle.length - 1 + (m - (i + 1 + (needle.length - 1))) + 1 by omega,
          List.drop_succ_cons]
        exact ⟨by omega, stands⟩
  | case3 i c t absent ih =>
      obtain ⟨le, stands⟩ := ih h
      rw [show m - i = m - (i + 1) + 1 by omega, List.drop_succ_cons]
      exact ⟨by omega, stands⟩

theorem stands_of_mem_occurrences {text needle : Bytes} {m : Nat}
    (h : m ∈ text.occurrences needle) : needle <+: text.drop m := by
  simpa using (mem_occurrencesFrom h).2

/-- No end of the text is a beginning of it, but for the text itself and the empty one. -/
def Unbordered (needle : Bytes) : Prop :=
  ∀ k, 0 < k → k < needle.length → ¬ needle.drop k <+: needle

theorem mem_occurrencesFrom_of_stands {needle s : Bytes} (ne : needle ≠ [])
    (unbordered : Unbordered needle) {i m : Nat} (hm : i ≤ m)
    (stands : needle <+: s.drop (m - i)) : m ∈ occurrencesFrom needle i s := by
  fun_induction occurrencesFrom needle i s with
  | case1 =>
      rw [List.drop_nil] at stands
      exact absurd (List.prefix_nil.1 stands) ne
  | case2 i c t here ih =>
      have first : needle <+: c :: t := List.isPrefixOf_iff_prefix.1 here
      rcases Nat.eq_or_lt_of_le hm with rfl | later
      · exact List.mem_cons_self
      · -- A place inside the one just found would be a border.
        have beyond : needle.length ≤ m - i := by
          apply Nat.le_of_not_lt
          intro inside
          apply unbordered (m - i) (by omega) inside
          refine List.prefix_of_prefix_length_le (first.drop (m - i)) stands ?_
          rw [List.length_drop]
          exact Nat.sub_le _ _
        have width := List.length_pos_iff.2 ne
        refine List.mem_cons_of_mem _ (ih (by omega) ?_)
        rw [List.drop_drop]
        rw [show m - i = needle.length - 1 + (m - (i + 1 + (needle.length - 1))) + 1 by omega,
          List.drop_succ_cons] at stands
        exact stands
  | case3 i c t absent ih =>
      rcases Nat.eq_or_lt_of_le hm with rfl | later
      · rw [Nat.sub_self, List.drop_zero] at stands
        exact absurd (List.isPrefixOf_iff_prefix.2 stands) absent
      · rw [show m - i = m - (i + 1) + 1 by omega, List.drop_succ_cons] at stands
        exact ih later stands

/-- A text that does not overlap itself is found wherever it stands. -/
theorem mem_occurrences_of_stands {text needle : Bytes} (ne : needle ≠ [])
    (unbordered : Unbordered needle) {m : Nat} (stands : needle <+: text.drop m) :
    m ∈ text.occurrences needle :=
  mem_occurrencesFrom_of_stands ne unbordered (Nat.zero_le m) stands

theorem occurrencesFrom_sorted (needle : Bytes) (i : Nat) (s : Bytes) :
    (occurrencesFrom needle i s).Pairwise (· < ·) := by
  fun_induction occurrencesFrom needle i s with
  | case1 => exact .nil
  | case2 i c t here ih =>
      refine .cons (fun m hm => ?_) ih
      have := (mem_occurrencesFrom hm).1
      omega
  | case3 i c t absent ih => exact ih

theorem indexFrom?_stands {needle s : Bytes} {i m : Nat} (h : indexFrom? needle i s = some m) :
    i ≤ m ∧ needle <+: s.drop (m - i) := by
  induction s generalizing i with
  | nil =>
      rw [indexFrom?] at h
      split at h
      next empty =>
        cases h
        rw [List.isEmpty_iff.1 empty]
        exact ⟨Nat.le_refl _, List.nil_prefix⟩
      next => cases h
  | cons c t ih =>
      rw [indexFrom?] at h
      split at h
      next here =>
        cases h
        rw [Nat.sub_self]
        exact ⟨Nat.le_refl _, List.isPrefixOf_iff_prefix.1 here⟩
      next =>
        obtain ⟨le, stands⟩ := ih h
        refine ⟨by omega, ?_⟩
        rwa [show m - i = m - (i + 1) + 1 by omega, List.drop_succ_cons]

theorem hasSubtext_iff {text needle : Bytes} :
    text.hasSubtext needle = true ↔ needle <:+: text := by
  have found (i : Nat) : (indexFrom? needle i text).isSome = true ↔ needle <:+: text := by
    induction text generalizing i with
    | nil => cases needle <;> simp [indexFrom?]
    | cons c t ih =>
        rw [indexFrom?, List.infix_cons_iff]
        split
        next here => exact iff_of_true rfl (.inl (List.isPrefixOf_iff_prefix.1 here))
        next absent =>
          rw [ih]
          constructor
          · exact .inr
          · intro stands
            cases stands with
            | inl here => exact absurd (List.isPrefixOf_iff_prefix.2 here) absent
            | inr later => exact later
  exact found 0

theorem le_of_indexFrom? {needle s : Bytes} {i m k : Nat} (h : indexFrom? needle i s = some m)
    (inside : k ≤ s.length) (stands : needle <+: s.drop k) : m ≤ i + k := by
  induction s generalizing i k with
  | nil =>
      rw [indexFrom?] at h
      split at h
      · cases h
        exact Nat.le_add_right _ _
      · cases h
  | cons c t ih =>
      rw [indexFrom?] at h
      split at h
      · cases h
        exact Nat.le_add_right _ _
      next absent =>
        cases k with
        | zero => exact absurd (List.isPrefixOf_iff_prefix.2 stands) absent
        | succ k =>
            have := ih h (by simpa using inside) stands
            omega

/-- The place found is the first one. -/
theorem index?_eq_some {text needle : Bytes} {m : Nat} (h : text.index? needle = some m) :
    ∃ u v, text = u ++ (needle ++ v) ∧ u.length = m ∧
      ∀ u' v', text = u' ++ (needle ++ v') → u.length ≤ u'.length := by
  have inside := indexFrom?_bounds h
  obtain ⟨-, v, stands⟩ := indexFrom?_stands h
  rw [Nat.sub_zero] at stands
  have width : (text.take m).length = m := by
    rw [List.length_take]
    omega
  refine ⟨text.take m, v, ?_, width, fun u' v' split => ?_⟩
  · rw [stands, List.take_append_drop]
  · rw [width]
    have le := le_of_indexFrom? h (k := u'.length) (by simp [split])
      (by rw [split, List.drop_left]; exact List.prefix_append _ _)
    omega

theorem index?_eq_none {text needle : Bytes} : text.index? needle = none ↔ ¬ needle <:+: text := by
  rw [← hasSubtext_iff, hasSubtext, Option.not_isSome_iff_eq_none]

theorem lastIndexFrom_stands {needle s : Bytes} {i m : Nat} {found : Option Nat}
    (h : lastIndexFrom needle i found s = some m) :
    found = some m ∨ i ≤ m ∧ needle <+: s.drop (m - i) := by
  induction s generalizing i found with
  | nil =>
      rw [lastIndexFrom] at h
      split at h
      next empty =>
        cases h
        rw [List.isEmpty_iff.1 empty]
        exact .inr ⟨Nat.le_refl _, List.nil_prefix⟩
      next => exact .inl h
  | cons c t ih =>
      rw [lastIndexFrom] at h
      cases ih h with
      | inr later =>
          obtain ⟨le, stands⟩ := later
          refine .inr ⟨by omega, ?_⟩
          rwa [show m - i = m - (i + 1) + 1 by omega, List.drop_succ_cons]
      | inl earlier =>
          split at earlier
          next here =>
            cases earlier
            rw [Nat.sub_self]
            exact .inr ⟨Nat.le_refl _, List.isPrefixOf_iff_prefix.1 here⟩
          next => exact .inl earlier

theorem le_lastIndexFrom_of_found (needle s : Bytes) {i m : Nat} (le : m ≤ i) :
    ∃ m', lastIndexFrom needle i (some m) s = some m' ∧ m ≤ m' := by
  induction s generalizing i m with
  | nil =>
      rw [lastIndexFrom]
      split
      · exact ⟨i, rfl, le⟩
      · exact ⟨m, rfl, Nat.le_refl m⟩
  | cons c t ih =>
      rw [lastIndexFrom]
      split
      · obtain ⟨m', found, later⟩ := ih (Nat.le_succ i)
        exact ⟨m', found, Nat.le_trans le later⟩
      · exact ih (Nat.le_succ_of_le le)

theorem le_lastIndexFrom {needle s : Bytes} (ne : needle ≠ []) {k : Nat}
    (stands : needle <+: s.drop k) (i : Nat) (found : Option Nat) :
    ∃ m, lastIndexFrom needle i found s = some m ∧ i + k ≤ m := by
  induction s generalizing i found k with
  | nil =>
      rw [List.drop_nil] at stands
      exact absurd (List.prefix_nil.1 stands) ne
  | cons c t ih =>
      rw [lastIndexFrom]
      cases k with
      | zero =>
          rw [List.drop_zero] at stands
          rw [if_pos (List.isPrefixOf_iff_prefix.2 stands)]
          exact le_lastIndexFrom_of_found needle t (Nat.le_succ i)
      | succ k =>
          obtain ⟨m, last, le⟩ := ih stands (i + 1) _
          exact ⟨m, last, by omega⟩

/-- The last place where a text stands is one, and none is behind it. -/
theorem lastIndex?_eq_some {text needle : Bytes} (ne : needle ≠ []) {m : Nat}
    (h : text.lastIndex? needle = some m) :
    needle <+: text.drop m ∧ ∀ k, needle <+: text.drop k → k ≤ m := by
  constructor
  · cases lastIndexFrom_stands h with
    | inl found => cases found
    | inr here => exact here.2
  · intro k stands
    obtain ⟨m', last, le⟩ := le_lastIndexFrom ne stands 0 none
    have same : m' = m := Option.some.inj (last.symm.trans h)
    omega

theorem lastIndex?_of_stands {text needle : Bytes} (ne : needle ≠ []) {k : Nat}
    (stands : needle <+: text.drop k) : ∃ m, text.lastIndex? needle = some m := by
  obtain ⟨m, last, -⟩ := le_lastIndexFrom ne stands 0 none
  exact ⟨m, last⟩

theorem prefix_singleton_take {text : Bytes} {c : UInt8} {i k : Nat} :
    [c] <+: (text.take i).drop k ↔ k < i ∧ text[k]? = some c := by
  have first : [c] <+: (text.take i).drop k ↔ (text.take i)[k]? = some c := by
    rw [← List.head?_drop, List.head?_eq_some_iff]
    exact ⟨fun ⟨t, whole⟩ => ⟨t, whole.symm⟩, fun ⟨t, whole⟩ => ⟨t, whole.symm⟩⟩
  rw [first, List.getElem?_take]
  by_cases before : k < i
  · rw [if_pos before, and_iff_right before]
  · rw [if_neg before]
    simp [before]

theorem idxOf?_append_cons {b : Bytes} {c : UInt8} (h : c ∉ b) (r : Bytes) :
    (b ++ c :: r).idxOf? c = some b.length := by
  induction b with
  | nil => simp [List.idxOf?_cons]
  | cons d b ih =>
      obtain ⟨first, later⟩ := not_or.1 (mt List.mem_cons.2 h)
      rw [List.cons_append, List.idxOf?_cons, if_neg (by simpa using Ne.symm first), ih later]
      rfl

end MarkupEdit.Bytes

namespace MarkupEdit.Place

def of (text : Bytes) (i : Nat) : Place := ⟨i, text.drop i⟩

/-- The first `n` places of a text, the last one first. -/
def before (text : Bytes) (n : Nat) : List Place := ((List.range n).map (of text)).reverse

theorem before_succ (text : Bytes) (n : Nat) :
    before text (n + 1) = of text n :: before text n := by
  simp [before, List.range_succ]

theorem backwardFrom_before {text : Bytes} {stop i : Nat} (hs : i ≤ stop)
    (hl : i ≤ text.length) :
    backwardFrom stop i (before text i) (text.drop i) = before text (min stop text.length) := by
  cases rest : text.drop i with
  | nil =>
      have := List.drop_eq_nil_iff.1 rest
      rw [backwardFrom, Nat.min_eq_right (by omega), Nat.le_antisymm hl this]
  | cons c t =>
      have tail : t = text.drop (i + 1) := by
        rw [← List.drop_drop, rest]
        rfl
      have inside : i < text.length := by
        apply Nat.lt_of_not_le
        intro h
        rw [List.drop_eq_nil_of_le h] at rest
        cases rest
      rw [backwardFrom]
      by_cases h : i < stop
      · rw [if_pos h, ← rest, tail, ← of, ← before_succ]
        exact backwardFrom_before h inside
      · rw [if_neg h, Nat.min_eq_left (by omega), Nat.le_antisymm hs (by omega)]
termination_by text.length - i

theorem backward_eq (text : Bytes) (stop : Nat) :
    backward text stop = before text (min stop text.length) :=
  backwardFrom_before (Nat.zero_le stop) (Nat.zero_le text.length)

theorem offset_lt_of_mem_backward {text : Bytes} {i : Nat} {place : Place}
    (mem : place ∈ backward text i) : place.offset < i := by
  rw [backward_eq, before, List.mem_reverse, List.mem_map] at mem
  obtain ⟨k, inside, rfl⟩ := mem
  exact Nat.lt_of_lt_of_le (List.mem_range.1 inside) (Nat.min_le_left _ _)

theorem backward_succ {text : Bytes} {i : Nat} (inside : i < text.length) :
    backward text (i + 1) = of text i :: backward text i := by
  rw [backward_eq, backward_eq, Nat.min_eq_left inside,
    Nat.min_eq_left (Nat.le_of_lt inside), before_succ]

theorem backward_succ_outside {text : Bytes} {i : Nat} (outside : text.length ≤ i) :
    backward text (i + 1) = backward text i := by
  rw [backward_eq, backward_eq, Nat.min_eq_right outside, Nat.min_eq_right (by omega)]

theorem drop_backward {text : Bytes} {i start : Nat} (le : start ≤ i) (inside : i ≤ text.length) :
    (backward text i).drop (i - start) = backward text start := by
  induction i with
  | zero =>
      obtain rfl := Nat.le_zero.1 le
      rfl
  | succ i ih =>
      by_cases same : start = i + 1
      · rw [same, Nat.sub_self, List.drop_zero]
      · rw [backward_succ inside, Nat.succ_sub (by omega), List.drop_succ_cons,
          ih (by omega) (by omega)]

theorem findSome?_before {α : Type} {text : Bytes} {f : Place → Option α} {n : Nat} {r : α} :
    (before text n).findSome? f = some r ↔
      ∃ i < n, f (of text i) = some r ∧ ∀ j, i < j → j < n → f (of text j) = none := by
  induction n with
  | zero => simp [before]
  | succ n ih =>
      rw [before_succ, List.findSome?_cons]
      cases here : f (of text n) with
      | some a =>
          constructor
          · rintro ⟨⟩
            exact ⟨n, Nat.lt_succ_self n, here, fun j hj hn => by omega⟩
          · rintro ⟨i, hi, found, none⟩
            rcases Nat.lt_succ_iff_lt_or_eq.1 hi with hi | rfl
            · rw [none n hi (Nat.lt_succ_self n)] at here
              cases here
            · rw [← here, found]
      | none =>
          rw [ih]
          constructor
          · rintro ⟨i, hi, found, later⟩
            refine ⟨i, Nat.lt_succ_of_lt hi, found, fun j hij hj => ?_⟩
            rcases Nat.lt_succ_iff_lt_or_eq.1 hj with hj | rfl
            · exact later j hij hj
            · exact here
          · rintro ⟨i, hi, found, later⟩
            rcases Nat.lt_succ_iff_lt_or_eq.1 hi with hi | rfl
            · exact ⟨i, hi, found, fun j hij hj => later j hij (Nat.lt_succ_of_lt hj)⟩
            · rw [here] at found
              cases found

/-- A backward search answers for the last place that has an answer. -/
theorem findSome?_backward {α : Type} {text : Bytes} {f : Place → Option α}
    (hf : ∀ i, f ⟨i, []⟩ = none) {stop : Nat} {r : α} :
    (backward text stop).findSome? f = some r ↔
      ∃ i < stop, f (of text i) = some r ∧ ∀ j, i < j → j < stop → f (of text j) = none := by
  have outside : ∀ j, text.length ≤ j → f (of text j) = none := by
    intro j hj
    rw [of, List.drop_eq_nil_of_le hj, hf]
  rw [backward_eq, findSome?_before]
  constructor
  · rintro ⟨i, hi, found, later⟩
    refine ⟨i, by omega, found, fun j hij hj => ?_⟩
    by_cases h : j < text.length
    · exact later j hij (by omega)
    · exact outside j (by omega)
  · rintro ⟨i, hi, found, later⟩
    have inside : i < text.length := by
      apply Nat.lt_of_not_le
      intro h
      rw [outside i h] at found
      cases found
    exact ⟨i, by omega, found, fun j hij hj => later j hij (by omega)⟩

theorem findSome?_backward_eq_none {α : Type} {text : Bytes} {f : Place → Option α}
    (hf : ∀ i, f ⟨i, []⟩ = none) {stop : Nat} (h : (backward text stop).findSome? f = none)
    {i : Nat} (hi : i < stop) : f (of text i) = none := by
  by_cases inside : i < text.length
  · rw [backward_eq, List.findSome?_eq_none_iff] at h
    apply h
    simp only [before, List.mem_reverse, List.mem_map, List.mem_range]
    exact ⟨i, by omega, rfl⟩
  · rw [of, List.drop_eq_nil_of_le (by omega), hf]

end MarkupEdit.Place
