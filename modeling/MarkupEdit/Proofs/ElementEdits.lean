import MarkupEdit.Proofs.ElementSeams

/-!
The edits of elements and of their text, in a text of any bytes. Elements are put in, taken away
and moved from seam to seam, each step in the text that the one before it left; of the text in an
element a part is replaced that lies inside it.
-/

namespace MarkupEdit

theorem lineStart_seam (text : Bytes) (k : Nat) :
    text.lineStart k ≤ k ∧ Seam text (text.lineStart k) := by
  rw [Bytes.lineStart]
  cases last : Bytes.lastIndex? (text.take k) [Byte.lineFeed] with
  | none => exact ⟨Nat.zero_le k, .first⟩
  | some i =>
      obtain ⟨r, split⟩ := (Bytes.lastIndex?_eq_some (List.cons_ne_nil _ _) last).1
      have stands : (text.take k)[i]? = some Byte.lineFeed := by
        rw [← List.head?_drop, ← split]
        rfl
      rw [List.getElem?_take] at stands
      split at stands
      next before => exact ⟨before, .behind stands (by decide)⟩
      next => cases stands

theorem isIndent_ascii {c : UInt8} (h : Byte.isIndent c = true) : c < 0x80 := by
  simp only [Byte.isIndent, Bool.or_eq_true, beq_iff_eq] at h
  cases h with
  | inl h => rw [h]; decide
  | inr h => rw [h]; decide

theorem indent_seam {text : Bytes} {i : Nat} (hi : Seam text i) :
    Seam text (i + ((text.drop i).takeWhile Byte.isIndent).length) := by
  have run := hi.run (fun c hc => isIndent_ascii hc) (text.drop i).length
  rwa [List.take_length] at run

theorem lineIndent_eq_slice (text : Bytes) (k : Nat) :
    text.lineIndent k =
      text.slice (text.lineStart k) (text.lineStart k + (text.lineIndent k).length) := by
  rw [Bytes.slice, List.drop_take, Nat.add_sub_cancel_left]
  exact List.prefix_iff_eq_take.1 (List.takeWhile_prefix Byte.isIndent)

theorem lineBreak_seam {text : Bytes} {i width : Nat} (hi : Seam text i)
    (h : Edit.lineBreakWidth? (text.drop i) = some width) : Seam text (i + width) := by
  rw [Edit.lineBreakWidth?.eq_def] at h
  split at h
  · cases h
    exact hi
  next c t rest =>
    obtain ⟨stands, tail, -⟩ := drop_eq_cons rest
    split at h
    next feed =>
      cases h
      exact .behind stands (by rw [feed]; decide)
    next =>
      split at h
      next both =>
        cases h
        rw [← tail, List.head?_drop] at both
        exact .behind both.2 (by decide)
      next => cases h

namespace Edit

theorem removeLocated_seamed {text : Bytes} {loc : Location} (sound : loc.Sound text) :
    (removeLocated text loc).Seamed text := by
  have opened := sound.opened
  have within := sound.within
  have whole : (Patch.removal loc.start loc.stop).Seamed text := by
    refine ⟨sound.start, sound.stop, ?_⟩
    simp only [Patch.removal]
    omega
  simp only [removeLocated]
  split
  next => exact whole
  next width found =>
    split
    next =>
      have line := lineStart_seam text loc.start
      refine ⟨line.2, lineBreak_seam (indent_seam sound.stop) found, ?_⟩
      simp only [Patch.removal]
      omega
    next => exact whole

theorem insertBeside_seamed {text : Bytes} {loc : Location} (sound : loc.Sound text)
    (markup : Bytes) (side : Side) : (insertBeside text loc markup side).Seamed text := by
  cases side with
  | before => exact ⟨sound.start, sound.start, Nat.le_refl _⟩
  | after => exact ⟨sound.stop, sound.stop, Nat.le_refl _⟩

variable {text id : Bytes} {patches : List Patch}

/-- What is done with a closed element is done with the element located by its id. -/
theorem located_of_bind {f : Location → Plan} (h : (locateClosed text id >>= f) = .ok patches) :
    ∃ loc, locate? text id = some loc ∧ f loc = .ok patches := by
  obtain ⟨loc, closed, h⟩ := bind_eq_ok.1 h
  exact ⟨loc, (locateClosed_eq_ok.1 closed).1, h⟩

theorem replaceElement_edit {markup : Bytes} (h : replaceElement text id markup = .ok patches) :
    ∃ loc, locate? text id = some loc ∧ patches = [⟨loc.start, loc.stop, markup⟩] := by
  obtain ⟨loc, located, h⟩ := located_of_bind h
  cases h
  exact ⟨loc, located, rfl⟩

theorem insertElement_edit {markup : Bytes} {side : Side}
    (h : insertElement text id markup side = .ok patches) :
    ∃ loc, locate? text id = some loc ∧ patches = [insertBeside text loc markup side] := by
  obtain ⟨loc, located, h⟩ := located_of_bind h
  cases h
  exact ⟨loc, located, rfl⟩

theorem removeElement_edit (h : removeElement text id = .ok patches) :
    ∃ loc, locate? text id = some loc ∧ patches = [removeLocated text loc] := by
  obtain ⟨loc, located, h⟩ := located_of_bind h
  cases h
  exact ⟨loc, located, rfl⟩

/-- A move takes the element away, and puts it in where its target is found then. -/
theorem moveElement_edit {target : Bytes} {side : Side}
    (h : moveElement text id target side = .ok patches) :
    ∃ loc goal, locate? text id = some loc ∧
      locate? ((removeLocated text loc).apply text) target = some goal ∧
      patches = [removeLocated text loc,
        insertBeside ((removeLocated text loc).apply text) goal loc.outer side] := by
  obtain ⟨loc, located, h⟩ := located_of_bind h
  cases found : locate? text target with
  | none => simp [found] at h
  | some goal =>
      simp only [found] at h
      split at h
      · cases h
      · obtain ⟨goal', located', h⟩ := located_of_bind h
        cases h
        exact ⟨loc, goal', located, located', rfl⟩

theorem contentOf_eq_ok {start stop : Nat} {content : Content}
    (h : contentOf text id = .ok (start, stop, content)) :
    ∃ loc, locate? text id = some loc ∧ loc.innerRange? = some (start, stop) ∧
      Content.between? text start stop = some content := by
  rw [contentOf] at h
  split at h
  · cases h
  next loc located =>
    split at h
    · cases h
    · split at h
      · cases h
      next range =>
        split at h
        · cases h
        next between =>
          cases h
          exact ⟨loc, located, range, between⟩

/-- The content of an element and its runs lie in the text, between seams. -/
theorem contentOf_sound {start stop : Nat} {content : Content}
    (h : contentOf text id = .ok (start, stop, content)) :
    Seam text start ∧ start ≤ stop ∧ Seam text stop ∧
      ∀ run ∈ content.runs, Content.IsRun text start stop run := by
  obtain ⟨loc, located, range, between⟩ := contentOf_eq_ok h
  have sound := sound_of_locate? located
  obtain ⟨first, le, -, seam⟩ := sound.innerRange range
  have start' : Seam text start := by
    rw [first]
    exact sound.openEnd
  exact ⟨start', le, seam, Content.runs_sound seam start' (Nat.le_refl start) between⟩

theorem contentOf_inside {start stop : Nat} {content : Content}
    (h : contentOf text id = .ok (start, stop, content)) :
    stop ≤ text.length ∧ ∀ run ∈ content.runs, run.2 ≤ text.length := by
  obtain ⟨-, -, seam, runs⟩ := contentOf_sound h
  exact ⟨seam.le, fun run mem => (runs run mem).stop.le⟩

theorem setText_edit {new : Bytes} {old : Option Bytes}
    (h : setText text id new old = .ok patches) :
    ∃ start stop content, contentOf text id = .ok (start, stop, content) ∧
      ((∃ sought offset, old = some sought ∧ sought ≠ [] ∧
          findInRuns? text sought content.runs = some offset ∧
          patches = [⟨offset, offset + sought.length, escapeText new⟩]) ∨
        content.nested = false ∧
          patches = [replaceTrimmed text start stop (escapeText new)]) := by
  obtain ⟨⟨start, stop, content⟩, found, h⟩ := bind_eq_ok.1 h
  refine ⟨start, stop, content, found, ?_⟩
  dsimp only at h
  split at h
  next sought some =>
    split at h
    · cases h
    next offset place =>
      cases h
      have both := Option.filter_eq_some_iff.1 some
      exact .inl ⟨sought, offset, both.1, by simpa using both.2, place, rfl⟩
  next =>
    split at h
    · cases h
    next flat =>
      cases h
      exact .inr ⟨by simpa using flat, rfl⟩

theorem findInRuns?_eq_some {sought : Bytes} {runs : List (Nat × Nat)} {offset : Nat}
    (h : findInRuns? text sought runs = some offset) :
    ∃ run ∈ runs, ∃ width, (text.slice run.1 run.2).index? sought = some width ∧
      offset = run.1 + width := by
  obtain ⟨run, mem, found⟩ := List.exists_of_findSome?_eq_some h
  obtain ⟨width, index, rfl⟩ := Option.map_eq_some_iff.1 found
  exact ⟨run, mem, width, index, rfl⟩

theorem findInRuns?_inside {sought : Bytes} {runs : List (Nat × Nat)} {offset : Nat}
    (bounded : ∀ run ∈ runs, run.1 ≤ run.2 ∧ run.2 ≤ text.length)
    (h : findInRuns? text sought runs = some offset) :
    ∃ run ∈ runs, run.1 ≤ offset ∧ offset + sought.length ≤ run.2 := by
  obtain ⟨run, mem, width, index, rfl⟩ := findInRuns?_eq_some h
  have within := bounded run mem
  have bounds := Bytes.indexFrom?_bounds index
  rw [Bytes.length_slice within.2] at bounds
  exact ⟨run, mem, Nat.le_add_right _ _, by omega⟩

end Edit

theorem length_trimStart_le (text : Bytes) : text.trimStart.length ≤ text.length := by
  fun_induction Bytes.trimStart text with
  | case1 => exact Nat.le_refl _
  | case2 => exact Nat.le_refl _
  | case3 c t n width ih =>
      rw [List.length_drop] at ih
      rw [List.length_cons]
      omega

theorem length_trim_le (text : Bytes) : text.trim.length ≤ text.trimStart.length := by
  rw [Bytes.trim, Bytes.trimEnd]
  exact List.length_take_le' _ _

theorem replaceTrimmed_inside {text : Bytes} {start stop : Nat} (le : start ≤ stop)
    (inside : stop ≤ text.length) (replacement : Bytes) :
    start ≤ (Edit.replaceTrimmed text start stop replacement).start ∧
      (Edit.replaceTrimmed text start stop replacement).start ≤
        (Edit.replaceTrimmed text start stop replacement).stop ∧
      (Edit.replaceTrimmed text start stop replacement).stop ≤ stop := by
  simp only [Edit.replaceTrimmed]
  have width : (text.slice start stop).length = stop - start := Bytes.length_slice inside
  have first := length_trimStart_le (text.slice start stop)
  have second := length_trim_le (text.slice start stop)
  split
  · exact ⟨Nat.le_refl _, le, Nat.le_refl _⟩
  · dsimp only
    omega

/-- The patch of an edit of text lies in a run of text, or in content that is text throughout. -/
theorem setText_patch {text id new : Bytes} {old : Option Bytes} {patches : List Patch}
    (h : Edit.setText text id new old = .ok patches) :
    ∃ start stop content q, Edit.contentOf text id = .ok (start, stop, content) ∧
      patches = [q] ∧ q.replacement = Edit.escapeText new ∧ q.Within text ∧ start ≤ q.start ∧
      q.stop ≤ stop ∧
      ((∃ run ∈ content.runs, run.1 ≤ q.start ∧ q.stop ≤ run.2) ∨ content.nested = false) := by
  obtain ⟨start, stop, content, found, planned⟩ := Edit.setText_edit h
  obtain ⟨-, le, seam, runs⟩ := Edit.contentOf_sound found
  cases planned with
  | inr trimmed =>
      obtain ⟨first, ordered, last⟩ :=
        replaceTrimmed_inside le seam.le (Edit.escapeText new)
      refine ⟨start, stop, content, _, found, trimmed.2, ?_, ⟨ordered, ?_⟩, first, last,
        .inr trimmed.1⟩
      · rw [Edit.replaceTrimmed]
        dsimp only
        split <;> rfl
      · exact Nat.le_trans last seam.le
  | inl named =>
      obtain ⟨sought, offset, -, -, place, planned⟩ := named
      have bounded : ∀ run ∈ content.runs, run.1 ≤ run.2 ∧ run.2 ≤ text.length :=
        fun run mem => ⟨Nat.le_of_lt (runs run mem).some, (runs run mem).stop.le⟩
      obtain ⟨run, mem, first, last⟩ := Edit.findInRuns?_inside bounded place
      have isRun := runs run mem
      exact ⟨start, stop, content, _, found, planned, rfl,
        ⟨Nat.le_add_right _ _, Nat.le_trans last isRun.stop.le⟩, Nat.le_trans isRun.first first,
        Nat.le_trans last isRun.within, .inl ⟨run, mem, first, last⟩⟩

theorem setText_within {text id new : Bytes} {old : Option Bytes} {patches : List Patch}
    (h : Edit.setText text id new old = .ok patches) :
    text.Each (fun text q => q.Within text) patches := by
  obtain ⟨start, stop, content, q, -, rfl, -, within, -⟩ := setText_patch h
  exact ⟨within, trivial⟩

end MarkupEdit
