import MarkupEdit.Proofs.Locations
import MarkupEdit.Proofs.Move

/-!
An element put in on a line of its own and taken away again. On which side of another element it
is put in, it ends up as one line between whole lines of the old text, and taking it away takes
that line. Nothing is said about the text around it, which may be broken.
-/

namespace MarkupEdit

/-- Nothing, or a text up to the end of a line. -/
def WholeLines (a : Bytes) : Prop := a = [] ∨ a.getLast? = some Byte.lineFeed

theorem wholeLines_line (a : Bytes) : WholeLines (a ++ [Byte.lineFeed]) := .inr List.getLast?_concat

theorem wholeLines_lineStart (text : Bytes) (k : Nat) :
    WholeLines (text.take (text.lineStart k)) := by
  rw [Bytes.lineStart]
  cases last : Bytes.lastIndex? (text.take k) [Byte.lineFeed] with
  | none => exact .inl rfl
  | some i =>
      have stands := (Bytes.lastIndex?_eq_some (List.cons_ne_nil _ _) last).1
      obtain ⟨-, feed⟩ := Bytes.prefix_singleton_take.1 stands
      rw [List.take_add_one, feed]
      exact wholeLines_line _

/-- A line goes back to the end of the one before. -/
theorem lineStart_wholeLines {a u : Bytes} (whole : WholeLines a) (one : Byte.lineFeed ∉ u)
    (s : Bytes) : (a ++ (u ++ s)).lineStart (a ++ u).length = a.length := by
  have ne : [Byte.lineFeed] ≠ [] := List.cons_ne_nil _ _
  have front : (a ++ (u ++ s)).take (a ++ u).length = a ++ u := by
    rw [← List.append_assoc, List.take_left]
  have before {m : Nat} (stands : [Byte.lineFeed] <+: (a ++ u).drop m) : m < a.length := by
    by_contra behind
    rw [List.drop_append, List.drop_eq_nil_of_le (by omega), List.nil_append] at stands
    exact one (List.mem_of_mem_drop (stands.subset List.mem_cons_self))
  rw [Bytes.lineStart, front]
  rcases whole with rfl | feed
  · cases last : Bytes.lastIndex? ([] ++ u) [Byte.lineFeed] with
    | none => rfl
    | some m => cases before (Bytes.lastIndex?_eq_some ne last).1
  · obtain ⟨x, rfl⟩ := List.getLast?_eq_some_iff.1 feed
    have here : [Byte.lineFeed] <+: ((x ++ [Byte.lineFeed]) ++ u).drop x.length := by
      rw [List.append_assoc, List.drop_left]
      exact List.prefix_append _ _
    obtain ⟨m, last⟩ := Bytes.lastIndex?_of_stands ne here
    obtain ⟨stands, greatest⟩ := Bytes.lastIndex?_eq_some ne last
    have least := greatest x.length here
    have inside := before stands
    rw [List.length_append, List.length_singleton] at inside ⊢
    rw [last]
    dsimp only
    omega

/-- An element to be put in a text, with a marker that the text does not hold. -/
structure Insertable (source : Bytes) (e : ElementText) (id : Bytes) : Prop where
  place : ∃ place : MarkerPlace e.tag id, Byte.less ∉ place.lead
  line : Byte.lineFeed ∉ id
  once : Bytes.times (Marker.ofId id) e.text = 1
  absent : Bytes.times (Marker.ofId id) source = 0

def withLine (a indent u r : Bytes) : Bytes := a ++ (indent ++ (u ++ Byte.lineFeed :: r))

def AllIndent (indent : Bytes) : Prop := ∀ c ∈ indent, Byte.isIndent c = true

theorem allIndent_lineIndent (text : Bytes) (k : Nat) : AllIndent (text.lineIndent k) :=
  fun c mem => List.all_eq_true.1 List.all_takeWhile c mem

theorem lineFeed_not_mem_indent {indent : Bytes} (blank : AllIndent indent) :
    Byte.lineFeed ∉ indent := fun mem => absurd (blank _ mem) (by decide)

theorem times_withLine {a : Bytes} (whole : WholeLines a) {indent : Bytes}
    (blank : AllIndent indent) {id : Bytes} (line : Byte.lineFeed ∉ id) (u r : Bytes) :
    Bytes.times (Marker.ofId id) (withLine a indent u r) =
      Bytes.times (Marker.ofId id) (a ++ r) + Bytes.times (Marker.ofId id) u := by
  have ne := ofId_ne_nil id
  have feed : Byte.lineFeed ∉ Marker.ofId id := not_mem_ofId (by decide) line
  have first : (0x64 : UInt8) ∉ indent := fun mem => absurd (blank _ mem) (by decide)
  have own : Bytes.times (Marker.ofId id) (indent ++ (u ++ Byte.lineFeed :: r)) =
      Bytes.times (Marker.ofId id) u + Bytes.times (Marker.ofId id) r := by
    rw [Bytes.times_skip (head?_ofId id) first, Bytes.times_split ne feed]
  rcases whole with rfl | last
  · rw [withLine, List.nil_append, List.nil_append, own, Nat.add_comm]
  · obtain ⟨x, rfl⟩ := List.getLast?_eq_some_iff.1 last
    rw [withLine, List.append_assoc, List.append_assoc, List.singleton_append,
      List.singleton_append, Bytes.times_split ne feed, Bytes.times_split ne feed, own]
    omega

/-- What is alone on its line is taken away with the line. -/
theorem removeLocated_withLine {a indent u r : Bytes} (whole : WholeLines a)
    (blank : AllIndent indent) {loc : Location} (start : loc.start = (a ++ indent).length)
    (stop : loc.stop = (a ++ indent).length + u.length) :
    (Edit.removeLocated (withLine a indent u r) loc).apply (withLine a indent u r) = a ++ r := by
  have line : (withLine a indent u r).lineStart loc.start = a.length := by
    rw [start]
    exact lineStart_wholeLines whole (lineFeed_not_mem_indent blank) _
  have split : withLine a indent u r = ((a ++ indent) ++ u) ++ Byte.lineFeed :: r := by
    simp only [withLine, List.append_assoc]
  have stop' : loc.stop = ((a ++ indent) ++ u).length := by
    rw [stop, ← List.length_append]
  have behind : (withLine a indent u r).drop loc.stop = Byte.lineFeed :: r := by
    rw [split, stop', List.drop_left]
  have indented : (withLine a indent u r).slice a.length loc.start = indent := by
    rw [withLine, ← List.append_assoc, Bytes.slice, start, List.take_left, List.drop_left]
  have width : Edit.lineBreakWidth? (Byte.lineFeed :: r) = some 1 := by
    rw [Edit.lineBreakWidth?, if_pos rfl]
  have none : (Byte.lineFeed :: r).takeWhile Byte.isIndent = [] :=
    List.takeWhile_cons_of_neg (by decide)
  have alone : indent.all Byte.isIndent = true := List.all_eq_true.2 blank
  simp only [Edit.removeLocated, line, behind, none, List.length_nil, Nat.add_zero, width,
    indented, alone, if_true]
  simp only [Patch.apply, Patch.removal, Bytes.splice, List.nil_append]
  rw [← List.drop_drop, behind, withLine, List.take_left]
  rfl

theorem removeElement_withLine {a indent r : Bytes} {e : ElementText} {id : String}
    (whole : WholeLines a) (blank : AllIndent indent)
    (insertable : Insertable (a ++ r) e (utf8 id)) :
    (Mutation.removeElement id).apply (withLine a indent e.text r) = .ok (a ++ r) := by
  obtain ⟨⟨place, clear⟩, line, once, absent⟩ := insertable
  have split : withLine a indent e.text r =
      (a ++ indent) ++ (e.text ++ Byte.lineFeed :: r) := by
    rw [withLine, List.append_assoc]
  have only : Bytes.times (Marker.ofId (utf8 id)) (withLine a indent e.text r) = 1 := by
    rw [times_withLine whole blank line, absent, once]
  have located : locate? (withLine a indent e.text r) (utf8 id) =
      some (e.locatedAt (a ++ indent).length) := by
    rw [split] at only ⊢
    exact (found_in_context place clear only).2
  have removed := @removeLocated_withLine a indent e.text r whole blank
    (e.locatedAt (a ++ indent).length) rfl rfl
  rw [Mutation.apply, Mutation.plan, Edit.removeElement, locateClosed_eq_ok.2 ⟨located, rfl⟩]
  exact congrArg Except.ok removed

section Beside

variable {source : Bytes} {id markup : String} {loc : Location}
  (located : locate? source (utf8 id) = some loc) (closed : loc.closed = true)

include located closed

theorem insertAfter_eq : (Mutation.insertAfter id markup).apply source =
    .ok (source.take loc.stop ++ Byte.lineFeed :: (source.lineIndent loc.start ++
      (utf8 markup ++ source.drop loc.stop))) := by
  rw [Mutation.apply, Mutation.plan, Edit.insertElement, locateClosed_eq_ok.2 ⟨located, closed⟩]
  change Except.ok ((Edit.insertBeside source loc (utf8 markup) .after).apply source) = _
  simp only [Edit.insertBeside, Patch.apply, Patch.insertion, Bytes.splice, List.cons_append,
    List.append_assoc]

theorem insertBefore_eq : (Mutation.insertBefore id markup).apply source =
    .ok (source.take loc.start ++ (utf8 markup ++ Byte.lineFeed ::
      (source.lineIndent loc.start ++ source.drop loc.start))) := by
  rw [Mutation.apply, Mutation.plan, Edit.insertElement, locateClosed_eq_ok.2 ⟨located, closed⟩]
  change Except.ok ((Edit.insertBeside source loc (utf8 markup) .before).apply source) = _
  simp only [Edit.insertBeside, Patch.apply, Patch.insertion, Bytes.splice, List.cons_append,
    List.append_assoc]

/-- Behind an element at the end of its line, the next line is the one put in. -/
theorem insertAfter_withLine (feed : source[loc.stop]? = some Byte.lineFeed) :
    ∃ a r, source = a ++ r ∧ WholeLines a ∧
      (Mutation.insertAfter id markup).apply source =
        .ok (withLine a (source.lineIndent loc.start) (utf8 markup) r) := by
  have behind : source.drop loc.stop = Byte.lineFeed :: source.drop (loc.stop + 1) := by
    obtain ⟨inside, same⟩ := List.getElem?_eq_some_iff.1 feed
    rw [List.drop_eq_getElem_cons inside, same]
  refine ⟨source.take loc.stop ++ [Byte.lineFeed], source.drop (loc.stop + 1), ?_,
    wholeLines_line _, ?_⟩
  · rw [List.append_assoc, List.singleton_append, ← behind, List.take_append_drop]
  · rw [insertAfter_eq located closed, behind, withLine, List.append_assoc, List.singleton_append]

/-- In front of an element that begins its line, the line before is the one put in. -/
theorem insertBefore_withLine
    (blank : AllIndent (source.slice (source.lineStart loc.start) loc.start)) :
    ∃ a r, source = a ++ r ∧ WholeLines a ∧
      (Mutation.insertBefore id markup).apply source =
        .ok (withLine a (source.lineIndent loc.start) (utf8 markup) r) := by
  obtain ⟨tag, -, exact⟩ := located_exactly located
  have line := (lineStart_seam source loc.start).1
  have rest : source.drop loc.start = Byte.less :: source.drop (loc.start + 1) := by
    obtain ⟨inside, same⟩ := List.getElem?_eq_some_iff.1 exact.less
    rw [List.drop_eq_getElem_cons inside, same]
  have split : source.slice (source.lineStart loc.start) loc.start ++ source.drop loc.start =
      source.drop (source.lineStart loc.start) := Bytes.slice_append_drop line
  have indent : source.lineIndent loc.start =
      source.slice (source.lineStart loc.start) loc.start := by
    rw [Bytes.lineIndent, ← split, rest, List.takeWhile_append_of_pos blank,
      List.takeWhile_cons_of_neg (by decide), List.append_nil]
  refine ⟨source.take (source.lineStart loc.start), source.drop (source.lineStart loc.start),
    (List.take_append_drop _ _).symm, wholeLines_lineStart source loc.start, ?_⟩
  rw [insertBefore_eq located closed, indent, split, ← Bytes.take_append_slice line, withLine,
    List.append_assoc]

end Beside

/-- An element that is put in behind another one at the end of its line, or in front of one that
begins its line, is taken away again without a trace. -/
theorem remove_inserted {source : Bytes} {id markup n : String} {loc : Location} {e : ElementText}
    (located : locate? source (utf8 id) = some loc) (closed : loc.closed = true)
    (written : utf8 markup = e.text) (insertable : Insertable source e (utf8 n)) :
    (source[loc.stop]? = some Byte.lineFeed →
      ∃ new, (Mutation.insertAfter id markup).apply source = .ok new ∧
        (Mutation.removeElement n).apply new = .ok source) ∧
    (AllIndent (source.slice (source.lineStart loc.start) loc.start) →
      ∃ new, (Mutation.insertBefore id markup).apply source = .ok new ∧
        (Mutation.removeElement n).apply new = .ok source) := by
  have removed {a r : Bytes} (split : source = a ++ r) (whole : WholeLines a) :
      (Mutation.removeElement n).apply
        (withLine a (source.lineIndent loc.start) (utf8 markup) r) = .ok source := by
    rw [split] at insertable
    rw [written, removeElement_withLine whole (allIndent_lineIndent _ _) insertable, split]
  constructor
  · intro feed
    obtain ⟨a, r, split, whole, made⟩ := insertAfter_withLine located closed feed
    exact ⟨_, made, removed split whole⟩
  · intro blank
    obtain ⟨a, r, split, whole, made⟩ := insertBefore_withLine located closed blank
    exact ⟨_, made, removed split whole⟩

theorem remove_inserted_in_broken_text :
    let source := utf8 "\x7b'<q\n \t" ++ (boldElement.text ++ utf8 "\n\"<p")
    let markup := "<p data-eid=\"a\">b<i/></p>"
    (∃ new, (Mutation.insertAfter "b" markup).apply source = .ok new ∧
      (Mutation.removeElement "a").apply new = .ok source) ∧
    ∃ new, (Mutation.insertBefore "b" markup).apply source = .ok new ∧
      (Mutation.removeElement "a").apply new = .ok source := by
  intro source markup
  have located : locate? source (utf8 "b") = some (boldElement.locatedAt 7) :=
    (found_in_context boldPlace (by decide) (by decide +kernel)).2
  have insertable : Insertable source paragraph (utf8 "a") :=
    ⟨⟨paragraphPlace, by decide⟩, by decide, by decide +kernel, by decide +kernel⟩
  have either := @remove_inserted source "b" markup "a" (boldElement.locatedAt 7) paragraph located
    rfl (by decide +kernel) insertable
  have blank : AllIndent (source.slice (source.lineStart 7) 7) := by
    rw [AllIndent, ← List.all_eq_true]
    decide +kernel
  exact ⟨either.1 (by decide +kernel), either.2 blank⟩

end MarkupEdit
