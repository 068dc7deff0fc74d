import MarkupEdit.Edit.Element
import MarkupEdit.Edit.Text
import MarkupEdit.Proofs.TagEdits

/-!
Where elements of a text of any bytes are cut: their ends, the range of their content, the runs of
text in it, and the lines that they stand on.
-/

namespace MarkupEdit

theorem utf8_close_ne_nil : utf8 "</" ≠ [] := by decide

structure Location.Sound (text : Bytes) (loc : Location) : Prop where
  start : Seam text loc.start
  openEnd : Seam text loc.openEnd
  stop : Seam text loc.stop
  opened : loc.start < loc.openEnd
  within : loc.openEnd ≤ loc.stop
  outer : loc.outer = text.slice loc.start loc.stop
  /-- The last `</` of a closed element is behind its opening tag. -/
  closing : loc.closed = true → loc.selfClosing = false →
    ∃ k, utf8 "</" <+: loc.outer.drop k ∧ loc.openEnd ≤ loc.start + k

theorem OpenTag.Sound.location {text : Bytes} {tag : OpenTag} (sound : tag.Sound text) :
    (tag.location text).Sound text := by
  have body := sound.body
  have opened : tag.start < tag.stop := by
    rw [OpenTag.nameEnd] at body
    rw [OpenTag.stop]
    omega
  have start : Seam text tag.start := .here sound.less (by decide)
  cases alone : tag.closesItself with
  | true =>
      simp only [OpenTag.location, alone, if_true, Option.getD_some]
      exact {
        start
        openEnd := sound.stop
        stop := sound.stop
        opened
        within := Nat.le_refl _
        outer := rfl
        closing := fun _ paired => absurd paired.symm Bool.false_ne_true }
  | false =>
      cases closed : Units.contentEnd text tag.stop tag.name with
      | none =>
          simp only [OpenTag.location, alone, closed, Bool.false_eq_true, if_false,
            Option.getD_none]
          exact {
            start
            openEnd := sound.stop
            stop := sound.stop
            opened
            within := Nat.le_refl _
            outer := rfl
            closing := fun closes => absurd closes Bool.false_ne_true }
      | some stop =>
          have bounds := Scan.contentEnd_bounds closed
          obtain ⟨ends, k, stands, le⟩ := Scan.contentEnd_ends closed
          simp only [OpenTag.location, alone, closed, Bool.false_eq_true, if_false,
            Option.getD_some]
          refine {
            start
            openEnd := sound.stop
            stop := ends.seam
            opened
            within := Nat.le_of_lt bounds.1
            outer := rfl
            closing := fun _ _ => ⟨tag.stop - tag.start + k, ?_, by dsimp only; omega⟩ }
          rw [List.drop_drop] at stands
          rw [Bytes.slice, List.drop_drop,
            show tag.start + (tag.stop - tag.start + k) = tag.stop + k by omega, List.drop_take]
          refine List.prefix_take_iff.2 ⟨stands, ?_⟩
          have width : (utf8 "</").length = 2 := rfl
          omega

theorem sound_of_locate? {text id : Bytes} {loc : Location} (h : locate? text id = some loc) :
    loc.Sound text := by
  obtain ⟨tag, found, rfl⟩ := Option.map_eq_some_iff.1 h
  exact (sound_of_locateTag? found).location

theorem locateClosed_eq_ok {text id : Bytes} {loc : Location} :
    Edit.locateClosed text id = .ok loc ↔ locate? text id = some loc ∧ loc.closed = true := by
  rw [Edit.locateClosed]
  cases locate? text id with
  | none => simp
  | some found =>
      cases closed : found.closed with
      | true =>
          simp only [closed, if_true, Except.ok.injEq, Option.some.injEq]
          exact ⟨fun same => ⟨same, same ▸ closed⟩, fun h => h.1⟩
      | false =>
          simp only [closed, Option.some.injEq]
          constructor
          · intro h
            cases h
          · intro h
            obtain ⟨rfl, h⟩ := h
            exact absurd (closed.symm.trans h) (by decide)

namespace Location.Sound

variable {text : Bytes} {loc : Location} (sound : loc.Sound text)

include sound

theorem innerRange {start stop : Nat} (h : loc.innerRange? = some (start, stop)) :
    start = loc.openEnd ∧ start ≤ stop ∧ stop ≤ loc.stop ∧ Seam text stop := by
  rw [Location.innerRange?] at h
  split at h
  · cases h
  next open' =>
    obtain ⟨close, last, same⟩ := Option.map_eq_some_iff.1 h
    cases same
    obtain ⟨stands, greatest⟩ := Bytes.lastIndex?_eq_some utf8_close_ne_nil last
    have both := not_or.1 open'
    obtain ⟨k, mark, le⟩ := sound.closing (by simpa using both.2) (by simpa using both.1)
    have := greatest k mark
    have bound := sound.stop.le
    have inside : close < loc.outer.length := by
      have := stands.length_le
      have width : (utf8 "</").length = 2 := rfl
      rw [List.length_drop] at this
      omega
    have less : loc.outer[close]? = some Byte.less := by
      obtain ⟨r, split⟩ := stands
      rw [← List.head?_drop, ← split]
      rfl
    have width : loc.outer.length = loc.stop - loc.start := by
      rw [sound.outer, Bytes.length_slice bound]
    refine ⟨rfl, by omega, by omega, ?_⟩
    rw [sound.outer, Bytes.slice, List.getElem?_drop, List.getElem?_take] at less
    split at less
    · exact .here less (by decide)
    · cases less

end Location.Sound

theorem unit_of_read {i j : Nat} {c : UInt8} {t : Bytes}
    (h : Child.read i (c :: t) = .unit j) : c < 0x80 ∧ i < j ∧ Scan.Ends i (c :: t) j := by
  have ofEnd {otherwise : Child} {e : Option Nat} (apart : ∀ k, otherwise ≠ .unit k)
      (h : Child.ofEnd otherwise e = .unit j) : e = some j := by
    cases e with
    | none => exact absurd h (apart j)
    | some k =>
        cases h
        rfl
  rw [Child.read] at h
  split at h
  next brace =>
    have ended := ofEnd (by simp) h
    have bounds := Scan.blockEnd_bounds ended
    exact ⟨by rw [brace]; decide, by omega,
      ((Scan.blockEnd_endsIn ended).cons c).ends (by decide)⟩
  next =>
    split at h
    next less =>
      refine ⟨by rw [less]; decide, ?_⟩
      split at h
      · have ended := ofEnd (by simp) h
        have bounds := Scan.declarationEnd_bounds ended
        have ends : Scan.EndsIn Byte.greater (i + 1) t j :=
          Scan.EndsIn.drop (n := 1) (Scan.declarationEnd_endsIn ended)
        exact ⟨by omega, (ends.cons c).ends (by decide)⟩
      · have ended := ofEnd (by simp) h
        have bounds := Scan.elementEnd_bounds ended
        exact ⟨by omega, ((Scan.elementEnd_endsIn ended).cons c).ends (by decide)⟩
    next => cases h

/-- A run of text is a range of some bytes between two seams. -/
structure Content.IsRun (text : Bytes) (least stop : Nat) (run : Nat × Nat) : Prop where
  first : least ≤ run.1
  some : run.1 < run.2
  within : run.2 ≤ stop
  start : Seam text run.1
  stop : Seam text run.2

theorem Content.runs_sound {text : Bytes} {stop start i : Nat} (hs : Seam text stop)
    (ha : Seam text start) (le : start ≤ i) {content : Content}
    (h : Content.scan? stop start i (text.drop i) = some content) :
    ∀ run ∈ content.runs, IsRun text start stop run := by
  have single {start stop' : Nat} (ha : Seam text start) (hs : Seam text stop')
      (within : stop' ≤ stop) : ∀ run ∈ Content.run start stop', IsRun text start stop run := by
    rw [Content.run]
    split
    next some => exact List.forall_mem_singleton.2 ⟨Nat.le_refl _, some, within, ha, hs⟩
    next => simp
  generalize rest : text.drop i = s at h
  fun_induction Content.scan? stop start i s generalizing content with
  | case1 =>
      cases h
      exact single ha hs (Nat.le_refl _)
  | case2 =>
      cases h
      exact single ha hs (Nat.le_refl _)
  | case3 => cases h
  | case4 start i c t before read ih =>
      exact ih ha (by omega) (drop_eq_cons rest).2.1 h
  | case5 => cases h
  | case6 start i c t before j read later scanned ih =>
      cases h
      obtain ⟨stands, tail, -⟩ := drop_eq_cons rest
      obtain ⟨ascii, behind, ends⟩ := unit_of_read read
      rw [← rest] at ends
      intro run mem
      cases List.mem_append.1 mem with
      | inl mem => exact single ha (.here stands ascii) (by omega) run mem
      | inr mem =>
          have next : text.drop j = Scan.goOn (i + 1) j t := by
            rw [← tail, goOn_drop text (by omega)]
          have sound := ih ends.seam (Nat.le_refl j) next scanned run mem
          exact { sound with first := by have := sound.first; omega }

end MarkupEdit
