import MarkupEdit.Proofs.SiblingWalk

/-!
When one element comes next behind another and the other comes just before it. Each of the two
answers is read off a walk of its own; they agree where both walks list both elements.
-/

namespace MarkupEdit

theorem start_lt_stop {text id : Bytes} {loc : Location} (h : locate? text id = some loc) :
    loc.start < loc.stop := by
  obtain ⟨tag, found, rfl⟩ := Option.map_eq_some_iff.1 h
  obtain ⟨m, -, k, owns, -⟩ := locateTag?_eq_some_iff.1 found
  obtain ⟨t, -, opened⟩ := Units.openTag?_eq_some_iff.1 owns.opens
  have start := start_owner? owns
  have bounds := Scan.openTag?_bounds opened
  simp only [OpenTag.location]
  split
  · simp only [Option.getD_some]
    omega
  · cases close : Units.contentEnd text tag.stop tag.name with
    | none =>
        simp only [Option.getD_none]
        omega
    | some j =>
        have := Scan.contentEnd_bounds close
        simp only [Option.getD_some]
        omega

namespace Siblings

/-- The elements of which the neighbours of a located element are two. -/
def walk (text : Bytes) (loc : Location) : List Marked :=
  let start := parentStart loc.start 0 (Place.backward text loc.start)
  children loc.start (max (parentEnd loc.stop 0 (text.drop loc.stop)) loc.stop) start
    (text.drop start)

def indented (text : Bytes) (i : Nat) (m : Marked) : Bool :=
  text.lineIndent m.start == text.lineIndent i

theorem ofLocation_eq (text : Bytes) (loc : Location) :
    ofLocation text loc = around loc.start (indented text loc.start) (walk text loc) :=
  rfl

theorem walk_spec (text : Bytes) (loc : Location) :
    ∃ i stop, loc.stop ≤ stop ∧ Walk text loc.start stop i (walk text loc) :=
  ⟨_, _, Nat.le_max_right _ _, walk_children _ _ _ _⟩

theorem sorted_walk (text : Bytes) (loc : Location) :
    (walk text loc).Pairwise (·.start < ·.start) := by
  obtain ⟨i, stop, -, run⟩ := walk_spec text loc
  exact run.sorted

theorem around_split {alike : Marked → Bool} {earlier later : List Marked} {m : Marked}
    (h : ∀ z ∈ earlier, z.start < m.start) :
    around m.start alike (earlier ++ m :: later) =
      ⟨(earlier.reverse.find? alike).map (·.id), (later.find? alike).map (·.id)⟩ := by
  have passed : ∀ z ∈ earlier, (z.start != m.start) = true := fun z hz => by
    have := h z hz
    simp only [bne_iff_ne]
    omega
  rw [around, List.dropWhile_append_of_pos passed, List.takeWhile_append_of_pos passed]
  simp

theorem exists_split {alike : Marked → Bool} {target : Nat} {l : List Marked}
    (sorted : l.Pairwise (·.start < ·.start)) (h : around target alike l ≠ alone) :
    ∃ earlier m later, l = earlier ++ m :: later ∧ m.start = target ∧
      (∀ z ∈ earlier, z.start < m.start) ∧ ∀ z ∈ later, m.start < z.start := by
  rw [around] at h
  split at h
  · exact absurd rfl h
  next m later behind =>
    have whole := List.takeWhile_append_dropWhile (p := (·.start != target)) (l := l)
    rw [behind] at whole
    rw [← whole, List.pairwise_append, List.pairwise_cons] at sorted
    have here : (m.start != target) = false := by
      have := List.head?_dropWhile_not (·.start != target) l
      simpa [behind] using this
    exact ⟨_, m, later, whole.symm, by simpa using here,
      fun z hz => sorted.2.2 z hz m List.mem_cons_self, sorted.2.1.1⟩

theorem exists_of_next {alike : Marked → Bool} {target : Nat} {l : List Marked} {id : Bytes}
    (sorted : l.Pairwise (·.start < ·.start)) (h : (around target alike l).next = some id) :
    ∃ m ∈ l, ∃ z ∈ l, m.start = target ∧ z.id = id ∧ m.start < z.start := by
  obtain ⟨earlier, m, later, rfl, rfl, before, behind⟩ :=
    exists_split sorted (fun none => by rw [none] at h; cases h)
  rw [around_split before] at h
  obtain ⟨z, found, rfl⟩ := Option.map_eq_some_iff.1 h
  have mem := List.mem_of_find?_eq_some found
  exact ⟨m, by simp, z, by simp [mem], rfl, rfl, behind z mem⟩

theorem exists_of_previous {alike : Marked → Bool} {target : Nat} {l : List Marked} {id : Bytes}
    (sorted : l.Pairwise (·.start < ·.start)) (h : (around target alike l).previous = some id) :
    ∃ m ∈ l, ∃ z ∈ l, m.start = target ∧ z.id = id ∧ z.start < m.start := by
  obtain ⟨earlier, m, later, rfl, rfl, before, behind⟩ :=
    exists_split sorted (fun none => by rw [none] at h; cases h)
  rw [around_split before] at h
  obtain ⟨z, found, rfl⟩ := Option.map_eq_some_iff.1 h
  have mem := List.mem_reverse.1 (List.mem_of_find?_eq_some found)
  exact ⟨m, by simp, z, by simp [mem], rfl, rfl, before z mem⟩

/-- An element whose id no other one bears is the first that is alike where none before is. -/
theorem find?_id_iff {alike : Marked → Bool} {u r : List Marked} {m : Marked}
    (only : ∀ z, z ∈ u ∨ z ∈ r → z.id = m.id → z.start = m.start)
    (hu : ∀ z ∈ u, z.start ≠ m.start) (hr : ∀ z ∈ r, z.start ≠ m.start) :
    ((u ++ m :: r).find? alike).map (·.id) = some m.id ↔
      alike m = true ∧ ∀ z ∈ u, alike z = false := by
  induction u with
  | nil =>
      cases here : alike m with
      | true => simp [here]
      | false =>
          simp only [List.nil_append, List.find?_cons, here, Bool.false_eq_true, false_and,
            iff_false]
          intro found
          obtain ⟨z, found, same⟩ := Option.map_eq_some_iff.1 found
          have mem := List.mem_of_find?_eq_some found
          exact hr z mem (only z (.inr mem) same)
  | cons x u ih =>
      have other : x.id ≠ m.id := fun same =>
        hu x List.mem_cons_self (only x (.inl List.mem_cons_self) same)
      have rest := ih (fun z hz => only z (hz.imp_left (List.mem_cons_of_mem x)))
        fun z hz => hu z (List.mem_cons_of_mem x hz)
      cases here : alike x with
      | true => simp [here, other]
      | false =>
          simp only [List.cons_append, List.find?_cons, here, rest, List.forall_mem_cons,
            true_and]

/-- No id is borne by two of the elements. -/
def UniqueIds (elements : List Marked) : Prop :=
  ∀ m ∈ elements, ∀ m' ∈ elements, m.id = m'.id → m.start = m'.start

instance (elements : List Marked) : Decidable (UniqueIds elements) :=
  inferInstanceAs (Decidable (∀ m ∈ elements, ∀ m' ∈ elements, _ → _))

/-- The elements that come up in the search for the neighbours of an id. -/
def met (text id : Bytes) : List Marked :=
  match locate? text id with
  | none => []
  | some loc => ⟨loc.start, id⟩ :: walk text loc

/-- Both elements are located, and each of the two walks lists both where they are located. -/
def SeeEachOther (text x y : Bytes) : Prop :=
  ∃ lx ly, locate? text x = some lx ∧ locate? text y = some ly ∧
    ∀ loc ∈ [lx, ly], ⟨lx.start, x⟩ ∈ walk text loc ∧ ⟨ly.start, y⟩ ∈ walk text loc

theorem siblingsOrAlone_of_locate {text id : Bytes} {loc : Location}
    (h : locate? text id = some loc) : siblingsOrAlone text id = ofLocation text loc := by
  rw [siblingsOrAlone, siblings, h]
  rfl

theorem exists_locate {text id : Bytes} (h : siblingsOrAlone text id ≠ alone) :
    ∃ loc, locate? text id = some loc := by
  apply Option.ne_none_iff_exists'.1
  intro absent
  rw [siblingsOrAlone, siblings, absent] at h
  exact h rfl

variable {text x y : Bytes} {lx ly : Location}

theorem mem_met (h : locate? text x = some lx) {m : Marked} (mem : m ∈ walk text lx) :
    m ∈ met text x := by
  rw [met, h]
  exact List.mem_cons_of_mem _ mem

theorem located_met (h : locate? text x = some lx) : ⟨lx.start, x⟩ ∈ met text x := by
  rw [met, h]
  exact List.mem_cons_self

/-- What is listed in a walk for one of the two ids under the other one stands where that is
located. -/
theorem start_of_listed (unique : UniqueIds (met text x ++ met text y))
    (hx : locate? text x = some lx) (hy : locate? text y = some ly) {z : Marked}
    (mem : z ∈ walk text lx ∨ z ∈ walk text ly) :
    (z.id = x → z.start = lx.start) ∧ (z.id = y → z.start = ly.start) := by
  have met : z ∈ met text x ++ met text y :=
    List.mem_append.2 (mem.imp (mem_met hx) (mem_met hy))
  exact ⟨unique z met _ (List.mem_append_left _ (located_met hx)),
    unique z met _ (List.mem_append_right _ (located_met hy))⟩

theorem seeEachOther_of_named (unique : UniqueIds (met text x ++ met text y))
    (next : (siblingsOrAlone text x).next = some y)
    (previous : (siblingsOrAlone text y).previous = some x) : SeeEachOther text x y := by
  obtain ⟨lx, hx⟩ := exists_locate (fun none => by rw [none] at next; cases next)
  obtain ⟨ly, hy⟩ := exists_locate (fun none => by rw [none] at previous; cases previous)
  rw [siblingsOrAlone_of_locate hx, ofLocation_eq] at next
  rw [siblingsOrAlone_of_locate hy, ofLocation_eq] at previous
  obtain ⟨m, hm, z, hz, start, id, -⟩ := exists_of_next (sorted_walk text lx) next
  obtain ⟨m', hm', z', hz', start', id', -⟩ := exists_of_previous (sorted_walk text ly) previous
  have zStart := (start_of_listed unique hx hy (.inl hz)).2 id
  have zStart' := (start_of_listed unique hx hy (.inr hz')).1 id'
  obtain ⟨_, _, -, run⟩ := walk_spec text lx
  obtain ⟨_, _, -, run'⟩ := walk_spec text ly
  have same : m = z' := run.eq_of_start hm run' hz' (by omega)
  have same' : z = m' := run.eq_of_start hz run' hm' (by omega)
  have isX : z' = ⟨lx.start, x⟩ := by rw [← id', ← zStart']
  have isY : z = ⟨ly.start, y⟩ := by rw [← id, ← zStart]
  refine ⟨lx, ly, hx, hy, ?_⟩
  simp only [List.forall_mem_cons, List.not_mem_nil, false_imp_iff, implies_true, and_true]
  rw [← isX, ← isY]
  exact ⟨⟨same ▸ hm, hz⟩, hz', same' ▸ hm'⟩

/-- Of two elements between which two lists agree, one comes next behind the other in the first
list exactly if the other comes just before it in the second. -/
theorem next_iff_previous_of_between {text : Bytes} {earlier earlier' u later later' : List Marked}
    {m n : Marked}
    (sorted : (earlier ++ m :: (u ++ n :: later)).Pairwise (·.start < ·.start))
    (sorted' : (earlier' ++ m :: (u ++ n :: later')).Pairwise (·.start < ·.start))
    (only : ∀ z ∈ earlier ++ m :: (u ++ n :: later), z.id = n.id → z.start = n.start)
    (only' : ∀ z ∈ earlier' ++ m :: (u ++ n :: later'), z.id = m.id → z.start = m.start) :
    (around m.start (indented text m.start) (earlier ++ m :: (u ++ n :: later))).next =
        some n.id ↔
      (around n.start (indented text n.start) (earlier' ++ m :: (u ++ n :: later'))).previous =
        some m.id := by
  rw [List.pairwise_append, List.pairwise_cons, List.pairwise_append, List.pairwise_cons]
    at sorted sorted'
  obtain ⟨-, ⟨behind, -, ⟨afterwards, -⟩, upTo⟩, before⟩ := sorted
  obtain ⟨-, -, before'⟩ := sorted'
  have nearBefore : ∀ z ∈ earlier' ++ m :: u, z.start < n.start := by
    intro z hz
    rcases List.mem_append.1 hz with hz | hz
    · exact before' z hz n (by simp)
    · rcases List.mem_cons.1 hz with rfl | hz
      · exact behind n (by simp)
      · exact upTo z hz n List.mem_cons_self
  have regroup : earlier' ++ m :: (u ++ n :: later') = (earlier' ++ m :: u) ++ n :: later' := by
    simp
  have next : ((u ++ n :: later).find? (indented text m.start)).map (·.id) = some n.id ↔
      indented text m.start n = true ∧ ∀ z ∈ u, indented text m.start z = false := by
    apply find?_id_iff
    · exact fun z hz => only z (by rcases hz with hz | hz <;> simp [hz])
    · exact fun z hz => Nat.ne_of_lt (upTo z hz n List.mem_cons_self)
    · exact fun z hz => Nat.ne_of_gt (afterwards z hz)
  have previous : ((u.reverse ++ m :: earlier'.reverse).find? (indented text n.start)).map (·.id) =
      some m.id ↔
        indented text n.start m = true ∧ ∀ z ∈ u.reverse, indented text n.start z = false := by
    apply find?_id_iff
    · exact fun z hz => only' z (by rcases hz with hz | hz <;> simp [List.mem_reverse.1 hz])
    · exact fun z hz => Nat.ne_of_gt (behind z (by simp [List.mem_reverse.1 hz]))
    · exact fun z hz => Nat.ne_of_lt (before' z (List.mem_reverse.1 hz) m List.mem_cons_self)
  rw [around_split fun z hz => before z hz m List.mem_cons_self, regroup, around_split nearBefore]
  simp only [List.reverse_append, List.reverse_cons, List.append_assoc, List.singleton_append]
  rw [next, previous]
  simp only [indented, beq_iff_eq, List.mem_reverse]
  constructor
  · rintro ⟨alike, others⟩
    rw [alike]
    exact ⟨rfl, others⟩
  · rintro ⟨alike, others⟩
    rw [alike]
    exact ⟨rfl, others⟩

theorem next_iff_previous_of_seeEachOther (unique : UniqueIds (met text x ++ met text y))
    (seen : SeeEachOther text x y) :
    (siblingsOrAlone text x).next = some y ↔ (siblingsOrAlone text y).previous = some x := by
  obtain ⟨lx, ly, hx, hy, listed⟩ := seen
  obtain ⟨first, last⟩ := listed lx (by simp)
  obtain ⟨first', -⟩ := listed ly (by simp)
  have sorted := sorted_walk text lx
  have sorted' := sorted_walk text ly
  have only : ∀ z ∈ walk text lx, z.id = y → z.start = ly.start :=
    fun z hz => (start_of_listed unique hx hy (.inl hz)).2
  have only' : ∀ z ∈ walk text ly, z.id = x → z.start = lx.start :=
    fun z hz => (start_of_listed unique hx hy (.inr hz)).1
  rw [siblingsOrAlone_of_locate hx, siblingsOrAlone_of_locate hy, ofLocation_eq, ofLocation_eq]
  by_cases order : lx.start < ly.start
  · obtain ⟨_, _, -, run⟩ := walk_spec text lx
    obtain ⟨_, _, reach, run'⟩ := walk_spec text ly
    have within' := Nat.lt_of_lt_of_le (start_lt_stop hy) reach
    obtain ⟨earlier, earlier', u, later, later', same, same'⟩ :=
      Walk.between (m := ⟨lx.start, x⟩) (n := ⟨ly.start, y⟩) run run' first first' last order
        within'
    rw [same] at sorted only ⊢
    rw [same'] at sorted' only' ⊢
    exact next_iff_previous_of_between sorted sorted' only only'
  · constructor
    · intro next
      obtain ⟨m, -, z, hz, start, id, behind⟩ := exists_of_next sorted next
      have := only z hz id
      omega
    · intro previous
      obtain ⟨m, -, z, hz, start, id, before⟩ := exists_of_previous sorted' previous
      have := only' z hz id
      omega

/-- Of two elements with ids of their own, one comes next behind the other exactly if the other
comes just before it, unless one is named as a neighbour of the other although one of the two
searches does not come past both. -/
theorem next_iff_previous_exactly (text x y : Bytes)
    (unique : UniqueIds (met text x ++ met text y)) :
    ((siblingsOrAlone text x).next = some y ↔ (siblingsOrAlone text y).previous = some x) ↔
      ((siblingsOrAlone text x).next = some y ∨ (siblingsOrAlone text y).previous = some x →
        SeeEachOther text x y) := by
  constructor
  · intro law named
    have next := named.elim id law.2
    exact seeEachOther_of_named unique next (law.1 next)
  · intro seen
    constructor
    · intro next
      exact (next_iff_previous_of_seeEachOther unique (seen (.inl next))).1 next
    · intro previous
      exact (next_iff_previous_of_seeEachOther unique (seen (.inr previous))).2 previous

def neighbours : Bytes :=
  utf8 "<main>\n  <p data-eid=\"a\">A</p>\n  <p data-eid=\"b\">B</p>\n</main>"

theorem neighbours_seeEachOther :
    UniqueIds (met neighbours (utf8 "a") ++ met neighbours (utf8 "b")) ∧
      SeeEachOther neighbours (utf8 "a") (utf8 "b") := by
  have unique : UniqueIds (met neighbours (utf8 "a") ++ met neighbours (utf8 "b")) := by
    decide +kernel
  have next : (siblingsOrAlone neighbours (utf8 "a")).next = some (utf8 "b") := by decide +kernel
  have previous : (siblingsOrAlone neighbours (utf8 "b")).previous = some (utf8 "a") := by
    decide +kernel
  have law := next_iff_previous_exactly neighbours (utf8 "a") (utf8 "b") unique
  exact ⟨unique, law.1 (iff_of_true next previous) (.inl next)⟩

/-- Two paragraphs, and a block between them that holds a closing brace in a literal. -/
def acrossBrace : Bytes :=
  utf8 "<main data-eid=\"main\">\n  <p data-eid=\"a\">A</p>\n  \x7bf(\"\x7d\")\x7d\n" ++
    utf8 "  <p data-eid=\"b\">B</p>\n</main>"

/-- From the second paragraph the block is not passed over, and the first is not found. -/
theorem acrossBrace_asymmetric :
    UniqueIds (met acrossBrace (utf8 "a") ++ met acrossBrace (utf8 "b")) ∧
      ¬ ((siblingsOrAlone acrossBrace (utf8 "a")).next = some (utf8 "b") ↔
        (siblingsOrAlone acrossBrace (utf8 "b")).previous = some (utf8 "a")) := by
  decide +kernel

end Siblings

end MarkupEdit
