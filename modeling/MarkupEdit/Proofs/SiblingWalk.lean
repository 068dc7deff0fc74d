import MarkupEdit.Markup.Siblings
import MarkupEdit.Proofs.Owner

/-!
The walk over the children of a parent, as a run of steps. A step lists at most the element
that starts at its offset; only a block that holds the target makes the step depend on the
target. So two walks that both come past an element agree from there up to the next element
that both list.
-/

namespace MarkupEdit.Siblings

/-- What a walk towards `target` lists at offset `i`, and where it goes on. There is no step at
the end of the text nor where a block or a declaration is never closed. -/
def step (target i : Nat) : Bytes → Option (List Marked × Nat)
  | [] => none
  | c :: t =>
    if c = Byte.openBrace then
      (Scan.blockEnd (i + 1) 0 t).map fun j =>
        ([], if i < target ∧ target < j then i + 1 else j)
    else if c = Byte.less then
      if t.head? = some Byte.bang then
        (Scan.declarationEnd (i + 2) (t.drop 1)).map fun j => ([], j)
      else if t.head? = some Byte.slash then
        match CloseTag.after? (i + 2) (t.drop 1) with
        | none => some ([], i + 1)
        | some close => some ([], close.stop)
      else
        match Scan.openTag? i t with
        | none => some ([], i + 1)
        | some tag => some (marked (c :: t) tag, elementStop tag (i + 1) t)
    else some ([], i + 1)

theorem lt_elementStop {i : Nat} {t : Bytes} {tag : OpenTag}
    (h : Scan.openTag? i t = some tag) (k : Nat) : i < elementStop tag k t := by
  have := Scan.openTag?_bounds h
  rw [elementStop]
  split
  · omega
  · cases found : Scan.contentEnd tag.stop tag.name 0 (Scan.goOn k tag.stop t) with
    | none =>
        simp only [Option.getD_none]
        omega
    | some j =>
        have := Scan.contentEnd_bounds found
        simp only [Option.getD_some]
        omega

/-- A step goes forward, and lists no more than the element that starts at its offset. -/
theorem step_spec {target i j : Nat} {s : Bytes} {here : List Marked}
    (h : step target i s = some (here, j)) :
    i < j ∧ (here = [] ∨ ∃ id, here = [⟨i, id⟩]) := by
  rw [step.eq_def] at h
  split at h
  · cases h
  next c t =>
    split at h
    · obtain ⟨k, found, same⟩ := Option.map_eq_some_iff.1 h
      have := Scan.blockEnd_bounds found
      cases same
      refine ⟨?_, .inl rfl⟩
      split <;> omega
    · split at h
      · split at h
        · obtain ⟨k, found, same⟩ := Option.map_eq_some_iff.1 h
          have := Scan.declarationEnd_bounds found
          cases same
          exact ⟨by omega, .inl rfl⟩
        · split at h
          · split at h
            · cases h
              exact ⟨Nat.lt_succ_self i, .inl rfl⟩
            next close found =>
              have := Scan.closeTag_bounds found
              cases h
              exact ⟨by omega, .inl rfl⟩
          · split at h
            · cases h
              exact ⟨Nat.lt_succ_self i, .inl rfl⟩
            next tag found =>
              cases h
              refine ⟨lt_elementStop found _, ?_⟩
              rw [marked, start_openTag? found]
              split
              · exact .inl rfl
              · exact .inr ⟨_, rfl⟩
      · cases h
        exact ⟨Nat.lt_succ_self i, .inl rfl⟩

/-- A step that opens no block for its target is taken for any target that is not passed. -/
theorem step_target {a b i j : Nat} {s : Bytes} {here : List Marked}
    (h : step a i s = some (here, j)) (ha : a ≤ i) (hb : ¬ (i < b ∧ b < j)) :
    step b i s = some (here, j) := by
  rw [step.eq_def] at h ⊢
  split at h
  · cases h
  next c t =>
    split at h
    next brace =>
      obtain ⟨k, found, same⟩ := Option.map_eq_some_iff.1 h
      rw [if_neg (by omega)] at same
      cases same
      rw [if_pos brace, found, Option.map_some, if_neg hb]
    next brace => rw [if_neg brace, h]

/-- A step that lists an element does not depend on the target. -/
theorem step_listed {a i j : Nat} {s : Bytes} {m : Marked} {more : List Marked}
    (h : step a i s = some (m :: more, j)) (b : Nat) : step b i s = some (m :: more, j) := by
  rw [step.eq_def] at h ⊢
  split at h
  · cases h
  next c t =>
    split at h
    · obtain ⟨k, -, same⟩ := Option.map_eq_some_iff.1 h
      cases same
    next brace => rw [if_neg brace, h]

theorem children_step (target stop i : Nat) (s : Bytes) :
    children target stop i s =
      if stop ≤ i then []
      else match step target i s with
        | none => []
        | some (here, j) => here ++ children target stop j (s.drop (j - i)) := by
  cases s with
  | nil =>
      rw [children, step]
      split <;> rfl
  | cons c t =>
      have goOn : ∀ {j}, i < j → (c :: t).drop (j - i) = Scan.goOn (i + 1) j t :=
        fun h => Scan.goOn_cons h c t
      have next : (c :: t).drop (i + 1 - i) = t := by
        rw [Nat.add_sub_cancel_left]
        rfl
      rw [children, step]
      by_cases within : stop ≤ i
      · rw [if_pos within, if_pos within]
      rw [if_neg within, if_neg within]
      by_cases brace : c = Byte.openBrace
      · rw [if_pos brace, if_pos brace]
        cases found : Scan.blockEnd (i + 1) 0 t with
        | none => rfl
        | some j =>
            have forward := (Scan.blockEnd_bounds found).1
            simp only [Option.map_some, List.nil_append]
            split
            · rw [next]
            · rw [goOn (by omega)]
      rw [if_neg brace, if_neg brace]
      by_cases less : c = Byte.less
      · rw [if_pos less, if_pos less]
        by_cases bang : t.head? = some Byte.bang
        · rw [if_pos bang, if_pos bang]
          cases found : Scan.declarationEnd (i + 2) (t.drop 1) with
          | none => rfl
          | some j =>
              have forward := (Scan.declarationEnd_bounds found).1
              simp only [Option.map_some, List.nil_append]
              rw [goOn (by omega)]
        rw [if_neg bang, if_neg bang]
        by_cases slash : t.head? = some Byte.slash
        · rw [if_pos slash, if_pos slash]
          cases found : CloseTag.after? (i + 2) (t.drop 1) with
          | none => simp only [List.nil_append, next]
          | some close =>
              have forward := (Scan.closeTag_bounds found).1
              simp only [List.nil_append]
              rw [goOn (by omega)]
        rw [if_neg slash, if_neg slash]
        cases found : Scan.openTag? i t with
        | none => simp only [List.nil_append, next]
        | some tag => simp only [goOn (lt_elementStop found (i + 1))]
      · rw [if_neg less, if_neg less]
        simp only [List.nil_append, next]

/-- A walk from offset `i` and what it lists. -/
inductive Walk (text : Bytes) (target stop : Nat) : Nat → List Marked → Prop where
  | ended {i : Nat} (h : stop ≤ i ∨ step target i (text.drop i) = none) :
      Walk text target stop i []
  | on {i j : Nat} {here later : List Marked} (within : i < stop)
      (first : step target i (text.drop i) = some (here, j))
      (further : Walk text target stop j later) : Walk text target stop i (here ++ later)

theorem walk_children (text : Bytes) (target stop i : Nat) :
    Walk text target stop i (children target stop i (text.drop i)) := by
  rw [children_step]
  by_cases within : stop ≤ i
  · rw [if_pos within]
    exact .ended (.inl within)
  · rw [if_neg within]
    cases first : step target i (text.drop i) with
    | none => exact .ended (.inr first)
    | some r =>
        obtain ⟨here, j⟩ := r
        have forward := (step_spec first).1
        have inside : i < text.length := by
          apply Nat.lt_of_not_le
          intro h
          rw [List.drop_eq_nil_of_le h, step] at first
          cases first
        dsimp only
        rw [List.drop_drop, show i + (j - i) = j by omega]
        exact .on (Nat.lt_of_not_le within) first (walk_children text target stop j)
termination_by text.length - i

namespace Walk

variable {text : Bytes} {target stop i : Nat} {l : List Marked} {m : Marked}

theorem le_start (walk : Walk text target stop i l) (mem : m ∈ l) : i ≤ m.start := by
  induction walk with
  | ended h => cases mem
  | on within first further ih =>
      obtain ⟨forward, rfl | ⟨id, rfl⟩⟩ := step_spec first
      · exact Nat.le_trans (Nat.le_of_lt forward) (ih mem)
      · rcases List.mem_cons.1 mem with rfl | mem
        · exact Nat.le_refl _
        · exact Nat.le_trans (Nat.le_of_lt forward) (ih mem)

theorem sorted (walk : Walk text target stop i l) : l.Pairwise (·.start < ·.start) := by
  induction walk with
  | ended h => exact .nil
  | on within first further ih =>
      obtain ⟨forward, rfl | ⟨id, rfl⟩⟩ := step_spec first
      · exact ih
      · exact .cons (fun m mem => Nat.lt_of_lt_of_le forward (further.le_start mem)) ih

/-- Behind an element that it lists, a walk goes on from where the step at that element leads. -/
theorem split (walk : Walk text target stop i l) (mem : m ∈ l) :
    ∃ earlier j later, l = earlier ++ m :: later ∧
      step target m.start (text.drop m.start) = some ([m], j) ∧
      Walk text target stop j later := by
  induction walk with
  | ended h => cases mem
  | @on i j here later within first further ih =>
      obtain ⟨forward, rfl | ⟨id, rfl⟩⟩ := step_spec first
      · exact ih mem
      · rcases List.mem_cons.1 mem with rfl | mem
        · exact ⟨[], j, later, rfl, first, further⟩
        · obtain ⟨earlier, k, behind, rfl, last, rest⟩ := ih mem
          exact ⟨⟨i, id⟩ :: earlier, k, behind, rfl, last, rest⟩

theorem eq_of_start (walk : Walk text target stop i l) (mem : m ∈ l) {target' stop' i' : Nat}
    {l' : List Marked} (walk' : Walk text target' stop' i' l') {m' : Marked} (mem' : m' ∈ l')
    (same : m.start = m'.start) : m = m' := by
  obtain ⟨-, j, -, -, first, -⟩ := walk.split mem
  obtain ⟨-, j', -, -, first', -⟩ := walk'.split mem'
  rw [← same, step_listed first target'] at first'
  cases first'
  rfl

/-- Two walks from one offset, one of which has passed its target, list the same up to an element
that the first one lists and the second one goes towards. -/
theorem agree (walk : Walk text target stop i l) (passed : target ≤ i) (mem : m ∈ l)
    {stop' : Nat} {l' : List Marked} (walk' : Walk text m.start stop' i l')
    (within' : m.start < stop') :
    ∃ between later later', l = between ++ m :: later ∧ l' = between ++ m :: later' := by
  induction walk generalizing l' with
  | ended h => cases mem
  | @on i j here later within first further ih =>
      have reached : i ≤ m.start := (Walk.on within first further).le_start mem
      obtain ⟨forward, listed⟩ := step_spec first
      -- A block around `m` alone would part the two, and the first walk would pass over `m` then.
      have same : step m.start i (text.drop i) = some (here, j) := by
        rcases listed with rfl | ⟨id, rfl⟩
        · apply step_target first passed
          have := further.le_start mem
          omega
        · exact step_listed first m.start
      cases walk' with
      | ended h =>
          rcases h with h | h
          · omega
          · rw [h] at same
            cases same
      | on _ first' further' =>
          rw [first'] at same
          cases same
          rcases List.mem_append.1 mem with mem | mem
          · obtain rfl | ⟨id, rfl⟩ := listed
            · cases mem
            · cases List.mem_singleton.1 mem
              exact ⟨[], _, _, rfl, rfl⟩
          · obtain ⟨between, behind, behind', rfl, rfl⟩ := ih (by omega) mem further'
            exact ⟨here ++ between, behind, behind', by simp, by simp⟩

/-- Of two walks towards two elements that both list the first one, and of which the first lists
both, the second lists both, and both list the same between them. -/
theorem between {n : Marked} (walk : Walk text m.start stop i l) {stop' i' : Nat}
    {l' : List Marked} (walk' : Walk text n.start stop' i' l') (mem : m ∈ l) (mem' : m ∈ l')
    (last : n ∈ l) (order : m.start < n.start) (within' : n.start < stop') :
    ∃ earlier earlier' u later later', l = earlier ++ m :: (u ++ n :: later) ∧
      l' = earlier' ++ m :: (u ++ n :: later') := by
  have sorted := walk.sorted
  obtain ⟨earlier, j, rest, rfl, first, run⟩ := walk.split mem
  obtain ⟨earlier', j', rest', rfl, first', run'⟩ := walk'.split mem'
  rw [step_listed first n.start] at first'
  cases first'
  have behind : n ∈ rest := by
    rw [List.pairwise_append] at sorted
    rcases List.mem_append.1 last with last | last
    · have := sorted.2.2 n last m List.mem_cons_self
      omega
    · rcases List.mem_cons.1 last with rfl | last
      · omega
      · exact last
  have passed := Nat.le_of_lt (step_spec first).1
  obtain ⟨u, later, later', rfl, rfl⟩ := run.agree passed behind run' within'
  exact ⟨earlier, earlier', u, later, later', rfl, rfl⟩

end Walk

end MarkupEdit.Siblings
