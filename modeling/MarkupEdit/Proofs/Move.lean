import MarkupEdit.Proofs.Independence
import MarkupEdit.Proofs.Removal

/-!
A move neither loses nor duplicates an element. It takes the element away, finds its target in
what is left, and puts the element in next to it; all that it adds is a line break with the
indentation of the target.
-/

namespace MarkupEdit

/-- The byte of the element moved that meets text it did not stand at before. -/
def Side.edge : Side → UInt8
  | .before => Byte.less
  | .after => Byte.greater

theorem not_mem_ofId {c : UInt8} (frame : c ∉ Marker.opening ++ [Byte.doubleQuote]) {id : Bytes}
    (h : c ∉ id) : c ∉ Marker.ofId id := by
  rw [Marker.ofId, List.append_assoc, List.mem_append, List.mem_append, not_or, not_or]
  rw [List.mem_append, not_or] at frame
  exact ⟨frame.1, h, frame.2⟩

theorem edge_not_mem_ofId {side : Side} {id : Bytes} (h : side.edge ∉ id) :
    side.edge ∉ Marker.ofId id := by
  cases side with
  | before => exact not_mem_ofId (by decide) h
  | after => exact not_mem_ofId (by decide) h

theorem head?_ofId (id : Bytes) : (Marker.ofId id).head? = some 0x64 := rfl

theorem getLast?_ofId (id : Bytes) : (Marker.ofId id).getLast? = some Byte.doubleQuote := by
  rw [Marker.ofId, List.getLast?_concat]

namespace ElementText

/-- Two elements side by side, the second one on the given side of the first. -/
def pair (t e : ElementText) (side : Side) (separator : Bytes) : Bytes :=
  match side with
  | .after => t.text ++ (separator ++ e.text)
  | .before => e.text ++ (separator ++ t.text)

theorem insertBeside_apply (t e : ElementText) (side : Side) (a b : Bytes) :
    (Edit.insertBeside (a ++ (t.text ++ b)) (t.locatedAt a.length) e.text side).apply
        (a ++ (t.text ++ b)) =
      a ++ (t.pair e side (Byte.lineFeed :: (a ++ (t.text ++ b)).lineIndent a.length) ++ b) := by
  cases side with
  | after =>
      simp only [Edit.insertBeside, Patch.apply, Patch.insertion, Bytes.splice, locatedAt, pair,
        List.take_length_add_append, List.drop_length_add_append, List.take_left, List.drop_left,
        List.append_assoc]
  | before =>
      simp only [Edit.insertBeside, Patch.apply, Patch.insertion, Bytes.splice, locatedAt, pair,
        List.take_left, List.drop_left, List.append_assoc]

/-- The markers in a text with an element put in next to another one are those of the text
without it and those of the element. -/
theorem times_pair {id separator : Bytes} {side : Side} (h : side.edge ∉ id)
    (blank : AllBlank separator) (t e : ElementText) (a b : Bytes) :
    Bytes.times (Marker.ofId id) (a ++ (t.pair e side separator ++ b)) =
      Bytes.times (Marker.ofId id) (a ++ (t.text ++ b)) +
        Bytes.times (Marker.ofId id) e.text := by
  have ne := ofId_ne_nil id
  have notFirst : (0x64 : UInt8) ∉ separator := fun mem => absurd (blank _ mem) (by decide)
  have notLast : Byte.doubleQuote ∉ separator := fun mem => absurd (blank _ mem) (by decide)
  cases side with
  | after =>
      have edge : Byte.greater ∉ Marker.ofId id := edge_not_mem_ofId h
      obtain ⟨t', ht⟩ := t.exists_greater
      obtain ⟨e', he⟩ := e.exists_greater
      have whole : a ++ (t.pair e .after separator ++ b) =
          (a ++ t') ++ Byte.greater :: (separator ++ (e' ++ Byte.greater :: b)) := by
        simp only [pair, ht, he, List.append_assoc, List.cons_append, List.nil_append]
      have left : a ++ (t.text ++ b) = (a ++ t') ++ Byte.greater :: b := by
        simp only [ht, List.append_assoc, List.singleton_append]
      rw [whole, left, Bytes.times_split ne edge, Bytes.times_split ne edge,
        Bytes.times_skip (head?_ofId id) notFirst, he, Bytes.times_split ne edge,
        Bytes.times_split ne edge]
      simp only [Bytes.times]
      omega
  | before =>
      have edge : Byte.less ∉ Marker.ofId id := edge_not_mem_ofId h
      obtain ⟨t', ht⟩ := t.exists_less
      obtain ⟨e', he⟩ := e.exists_less
      have whole : a ++ (t.pair e .before separator ++ b) =
          a ++ Byte.less :: ((e' ++ separator) ++ Byte.less :: (t' ++ b)) := by
        simp only [pair, ht, he, List.append_assoc, List.cons_append]
      have left : a ++ (t.text ++ b) = a ++ Byte.less :: (t' ++ b) := by
        simp only [ht, List.cons_append]
      have alone : e.text = [] ++ Byte.less :: e' := he
      rw [whole, left, Bytes.times_split ne edge, Bytes.times_split ne edge,
        Bytes.times_split ne edge, Bytes.times_trail (getLast?_ofId id) notLast, alone,
        Bytes.times_split ne edge]
      simp only [Bytes.times]
      omega

end ElementText

/-- An element stands next to another one, with a line break and the indentation of the other
between them, and without both the text is what it was. -/
def Adjoins (side : Side) (left new : Bytes) (goal kept moved : Location) : Prop :=
  let separator := Byte.lineFeed :: left.lineIndent goal.start
  match side with
  | .after => kept.stop ≤ moved.start ∧ new.slice kept.stop moved.start = separator ∧
      new.splice kept.stop moved.stop [] = left
  | .before => moved.stop ≤ kept.start ∧ new.slice moved.stop kept.start = separator ∧
      new.splice moved.start kept.start [] = left

/-- Two elements of a text that have no byte in common, in either order. -/
def Apart (source : Bytes) (e t : ElementText) : Prop :=
  ∃ p q s, source = p ++ e.text ++ q ++ t.text ++ s ∨ source = p ++ t.text ++ q ++ e.text ++ s

/-- Each of two disjoint elements has its own surroundings, the markers of both are among those
of the text, and the second one is whole in what is left without the first. -/
theorem Apart.surroundings {source : Bytes} {e t : ElementText} (apart : Apart source e t) :
    ∃ p r p' r', source = p ++ (e.text ++ r) ∧ source = p' ++ (t.text ++ r') ∧
      (p'.length < p.length ∨ p.length + e.text.length ≤ p'.length) ∧
      (∀ needle, Bytes.times needle e.text + Bytes.times needle t.text ≤
        Bytes.times needle source) ∧
      ∃ a b, (Edit.removeLocated source (e.locatedAt p.length)).apply source =
        a ++ (t.text ++ b) := by
  obtain ⟨p, q, s, order⟩ := apart
  cases order with
  | inl order =>
      have here : source = p ++ (e.text ++ (q ++ (t.text ++ s))) := by
        simp only [order, List.append_assoc]
      refine ⟨p, q ++ (t.text ++ s), p ++ e.text ++ q, s, here, ?_, ?_, ?_, ?_⟩
      · simp only [order, List.append_assoc]
      · right
        simp only [List.length_append]
        omega
      · intro needle
        rw [here]
        have first := Bytes.times_append_le needle p (e.text ++ (q ++ (t.text ++ s)))
        have second := Bytes.times_append_le needle e.text (q ++ (t.text ++ s))
        have third := Bytes.times_le_context needle q t.text s
        omega
      · obtain ⟨p', gap, gap', r', -, behind, -, blank, left⟩ :=
          @removeLocated_apply (e.locatedAt p.length) p e.text (q ++ (t.text ++ s)) rfl rfl
        obtain ⟨q', -, rest⟩ := t.gap_before blank behind
        exact ⟨p' ++ q', s, by rw [here, left, rest, List.append_assoc]⟩
  | inr order =>
      have here : source = (p ++ (t.text ++ q)) ++ (e.text ++ s) := by
        simp only [order, List.append_assoc]
      refine ⟨p ++ (t.text ++ q), s, p, q ++ (e.text ++ s), here, ?_, ?_, ?_, ?_⟩
      · simp only [order, List.append_assoc]
      · left
        obtain ⟨t', less⟩ := t.exists_less
        simp only [less, List.length_append, List.length_cons]
        omega
      · intro needle
        rw [here]
        have first := Bytes.times_append_le needle (p ++ (t.text ++ q)) (e.text ++ s)
        have second := Bytes.times_append_le needle e.text s
        have third := Bytes.times_le_context needle p t.text q
        omega
      · obtain ⟨p', gap, gap', r', front, -, blank, -, left⟩ :=
          @removeLocated_apply (e.locatedAt (p ++ (t.text ++ q)).length) (p ++ (t.text ++ q))
            e.text s rfl rfl
        obtain ⟨q', -, rest⟩ := t.gap_behind blank front
        exact ⟨p, q' ++ r', by rw [here, left, rest]; simp only [List.append_assoc]⟩

theorem splice_append (p u s v : Bytes) :
    (p ++ (u ++ s)).splice p.length (p.length + u.length) v = p ++ (v ++ s) := by
  rw [Bytes.splice, List.take_left, List.drop_length_add_append, List.drop_left]

/-- An element that is put in next to another one is found there whole, and adjoins it. -/
theorem adjoins_pair (t e : ElementText) (side : Side) (a b : Bytes) {ide idt : Bytes}
    (placeE : MarkerPlace e.tag ide) (clearE : Byte.less ∉ placeE.lead)
    (placeT : MarkerPlace t.tag idt) (clearT : Byte.less ∉ placeT.lead)
    {left new : Bytes} (hl : left = a ++ (t.text ++ b))
    (hn : new = a ++ (t.pair e side (Byte.lineFeed :: left.lineIndent a.length) ++ b))
    (onceE : Bytes.times (Marker.ofId ide) new = 1)
    (onceT : Bytes.times (Marker.ofId idt) new = 1) :
    ∃ kept moved, locate? new ide = some moved ∧ moved.outer = e.text ∧
      locate? new idt = some kept ∧ kept.outer = t.text ∧
      Adjoins side left new (t.locatedAt a.length) kept moved := by
  let gap := Byte.lineFeed :: left.lineIndent a.length
  have located {u : ElementText} {id : Bytes} (place : MarkerPlace u.tag id)
      (clear : Byte.less ∉ place.lead) {p s : Bytes} (here : new = p ++ (u.text ++ s))
      (once : Bytes.times (Marker.ofId id) new = 1) :
      locate? new id = some (u.locatedAt p.length) := by
    rw [here] at once ⊢
    exact (found_in_context place clear once).2
  cases side with
  | after =>
      have atT : new = a ++ (t.text ++ (gap ++ (e.text ++ b))) := by
        simp only [hn, ElementText.pair, List.append_assoc, gap]
      have atE : new = (a ++ (t.text ++ gap)) ++ (e.text ++ b) := by
        simp only [atT, List.append_assoc]
      have behind : new = (a ++ t.text) ++ ((gap ++ e.text) ++ b) := by
        simp only [atT, List.append_assoc]
      refine ⟨t.locatedAt a.length, e.locatedAt (a ++ (t.text ++ gap)).length,
        located placeE clearE atE onceE, rfl, located placeT clearT atT onceT, rfl, ?_⟩
      have stopT : (t.locatedAt a.length).stop = (a ++ t.text).length :=
        List.length_append.symm
      have startE : (e.locatedAt (a ++ (t.text ++ gap)).length).start =
          (a ++ t.text).length + gap.length := by
        simp only [ElementText.locatedAt, List.length_append]
        omega
      have stopE : (e.locatedAt (a ++ (t.text ++ gap)).length).stop =
          (a ++ t.text).length + (gap ++ e.text).length := by
        simp only [ElementText.locatedAt, List.length_append]
        omega
      simp only [Adjoins, stopT, startE, stopE]
      refine ⟨Nat.le_add_right _ _, ?_, ?_⟩
      · rw [behind, List.append_assoc gap, slice_append]
        rfl
      · rw [behind, splice_append, hl, List.nil_append, List.append_assoc]
  | before =>
      have atE : new = a ++ (e.text ++ (gap ++ (t.text ++ b))) := by
        simp only [hn, ElementText.pair, List.append_assoc, gap]
      have atT : new = (a ++ (e.text ++ gap)) ++ (t.text ++ b) := by
        simp only [atE, List.append_assoc]
      refine ⟨t.locatedAt (a ++ (e.text ++ gap)).length, e.locatedAt a.length,
        located placeE clearE atE onceE, rfl, located placeT clearT atT onceT, rfl, ?_⟩
      have startT : (t.locatedAt (a ++ (e.text ++ gap)).length).start =
          (a ++ e.text).length + gap.length := by
        simp only [ElementText.locatedAt, List.length_append]
        omega
      have startT' : (a ++ e.text).length + gap.length = a.length + (e.text ++ gap).length := by
        simp only [List.length_append]
        omega
      have stopE : (e.locatedAt a.length).stop = (a ++ e.text).length :=
        List.length_append.symm
      simp only [Adjoins, startT, stopE]
      refine ⟨Nat.le_add_right _ _, ?_, ?_⟩
      · rw [atE, ← List.append_assoc, slice_append]
        rfl
      · rw [startT', atT, List.append_assoc]
        change (a ++ ((e.text ++ gap) ++ (t.text ++ b))).splice a.length _ [] = left
        rw [splice_append, hl, List.nil_append]

/-- Two disjoint elements of a text, in which the marker of each stands exactly once. -/
structure Movable (source : Bytes) (e t : ElementText) (id target : Bytes) : Prop where
  apart : Apart source e t
  place : ∃ place : MarkerPlace e.tag id, Byte.less ∉ place.lead
  placeTarget : ∃ place : MarkerPlace t.tag target, Byte.less ∉ place.lead
  once : Bytes.times (Marker.ofId id) source = 1
  onceTarget : Bytes.times (Marker.ofId target) source = 1

/-- Of two disjoint elements one is moved next to the other. The ids do not hold the byte with
which the element moved meets new text, and where it is taken away the text closes up without
making or breaking a marker. Then both elements are found in the new text as they were in the
old one, and they adjoin. -/
theorem move_keeps_both {source : Bytes} {e t : ElementText} {id target : String} {side : Side}
    (movable : Movable source e t (utf8 id) (utf8 target))
    (edge : side.edge ∉ utf8 id) (edgeTarget : side.edge ∉ utf8 target)
    (keeps : ∀ left, (Mutation.removeElement id).apply source = .ok left →
      Bytes.times (Marker.ofId (utf8 id)) left = 0 ∧
      Bytes.times (Marker.ofId (utf8 target)) left = 1) :
    ∃ left new goal kept moved,
      (Mutation.removeElement id).apply source = .ok left ∧
      (Mutation.moveElement id target side).apply source = .ok new ∧
      Bytes.times (Marker.ofId (utf8 id)) new = 1 ∧
      Bytes.times (Marker.ofId (utf8 target)) new = 1 ∧
      (locate? source (utf8 id)).map (·.outer) = some e.text ∧
      (locate? source (utf8 target)).map (·.outer) = some t.text ∧
      locate? left (utf8 target) = some goal ∧
      locate? new (utf8 id) = some moved ∧ moved.outer = e.text ∧
      locate? new (utf8 target) = some kept ∧ kept.outer = t.text ∧
      Adjoins side left new goal kept moved := by
  obtain ⟨apart, ⟨placeE, clearE⟩, ⟨placeT, clearT⟩, onceE, onceT⟩ := movable
  obtain ⟨p, r, p', r', hereE, hereT, outside, both, a, b, removed⟩ := apart.surroundings
  have foundE : locate? source (utf8 id) = some (e.locatedAt p.length) := by
    rw [hereE] at onceE ⊢
    exact (found_in_context placeE clearE onceE).2
  have foundT : locate? source (utf8 target) = some (t.locatedAt p'.length) := by
    rw [hereT] at onceT ⊢
    exact (found_in_context placeT clearT onceT).2
  have aloneE : Bytes.times (Marker.ofId (utf8 id)) e.text = 1 :=
    times_alone placeE (hereE ▸ onceE)
  have aloneT : Bytes.times (Marker.ofId (utf8 target)) t.text = 1 :=
    times_alone placeT (hereT ▸ onceT)
  have foreign : Bytes.times (Marker.ofId (utf8 target)) e.text = 0 := by
    have := both (Marker.ofId (utf8 target))
    omega
  have closedE := locateClosed_eq_ok.2 ⟨foundE, rfl⟩
  have taken : (Mutation.removeElement id).apply source = .ok (a ++ (t.text ++ b)) := by
    rw [Mutation.apply, Mutation.plan, Edit.removeElement, closedE]
    change Except.ok _ = _
    rw [← removed]
    rfl
  obtain ⟨leftE, leftT⟩ := keeps _ taken
  have goal := (found_in_context placeT clearT leftT).2
  let new := a ++ (t.pair e side
    (Byte.lineFeed :: (a ++ (t.text ++ b)).lineIndent a.length) ++ b)
  have moves : (Mutation.moveElement id target side).apply source = .ok new := by
    have free : ¬ ((e.locatedAt p.length).start ≤ (t.locatedAt p'.length).start ∧
        (t.locatedAt p'.length).start < (e.locatedAt p.length).stop) := by
      simp only [ElementText.locatedAt]
      omega
    rw [Mutation.apply, Mutation.plan, Edit.moveElement, closedE]
    simp only [bind, Except.bind, foundT, if_neg free, removed,
      locateClosed_eq_ok.2 ⟨goal, rfl⟩]
    change Except.ok (Patch.apply _ (Patch.apply _ source)) = _
    rw [removed]
    exact congrArg _ (ElementText.insertBeside_apply t e side a b)
  have blank : AllBlank (Byte.lineFeed :: (a ++ (t.text ++ b)).lineIndent a.length) :=
    List.forall_mem_cons.2 ⟨by decide, allBlank_indent _⟩
  have newE : Bytes.times (Marker.ofId (utf8 id)) new = 1 := by
    rw [ElementText.times_pair edge blank, leftE, aloneE]
  have newT : Bytes.times (Marker.ofId (utf8 target)) new = 1 := by
    rw [ElementText.times_pair edgeTarget blank, leftT, foreign]
  obtain ⟨kept, moved, isMoved, outerE, isKept, outerT, adjoins⟩ :=
    adjoins_pair t e side a b placeE clearE placeT clearT rfl rfl newE newT
  exact ⟨_, new, _, kept, moved, taken, moves, newE, newT, by rw [foundE]; rfl,
    by rw [foundT]; rfl, goal, isMoved, outerE, isKept, outerT, adjoins⟩

theorem move_in_broken_text :
    let source := utf8 "\x7b'<q\r\n \t" ++ paragraph.text ++ utf8 " \r\n\t <q" ++
      boldElement.text ++ utf8 "\"<p"
    let left := utf8 "\x7b'<q\r\n\t <q<b data-eid=\"b\">c</b>\"<p"
    let new := utf8 ("\x7b'<q\r\n\t <q<b data-eid=\"b\">c</b>\n\t " ++
      "<p data-eid=\"a\">b<i/></p>\"<p")
    (Mutation.removeElement "a").apply source = .ok left ∧
      (Mutation.moveElement "a" "b" .after).apply source = .ok new ∧
      ∃ goal kept moved, locate? left (utf8 "b") = some goal ∧
        locate? new (utf8 "a") = some moved ∧ moved.outer = paragraph.text ∧
        locate? new (utf8 "b") = some kept ∧ kept.outer = boldElement.text ∧
        Adjoins .after left new goal kept moved := by
  intro source left new
  have movable : Movable source paragraph boldElement (utf8 "a") (utf8 "b") :=
    ⟨⟨_, _, _, .inl rfl⟩, ⟨paragraphPlace, by decide⟩, ⟨boldPlace, by decide⟩,
      by decide +kernel, by decide +kernel⟩
  have removed : (Mutation.removeElement "a").apply source = .ok left := by decide +kernel
  have moves : (Mutation.moveElement "a" "b" .after).apply source = .ok new := by
    decide +kernel
  have keeps : ∀ left', (Mutation.removeElement "a").apply source = .ok left' →
      Bytes.times (Marker.ofId (utf8 "a")) left' = 0 ∧
      Bytes.times (Marker.ofId (utf8 "b")) left' = 1 := by
    intro left' h
    cases removed.symm.trans h
    decide +kernel
  obtain ⟨left', new', goal, kept, moved, taken, accepted, -, -, -, -, found⟩ :=
    @move_keeps_both source paragraph boldElement "a" "b" .after movable (by decide) (by decide)
      keeps
  cases removed.symm.trans taken
  cases moves.symm.trans accepted
  exact ⟨removed, moves, goal, kept, moved, found⟩

theorem Markup.contentBytes {b : Bytes} (h : ∀ c ∈ b, Part.content.isPlain c = true) :
    Markup .content b := by
  induction b with
  | nil => exact .contentNil
  | cons c t ih =>
      exact .contentByte (h c List.mem_cons_self)
        (ih fun d hd => h d (List.mem_cons_of_mem c hd))

/-- The element `<b data-eid="…">…</b>` with plain content. -/
def boldWith (id content : Bytes)
    (hid : id.all (fun c => c != Byte.backslash && c != Byte.doubleQuote) = true)
    (hc : content.all Part.content.isPlain = true) : ElementText where
  tag := .ofId (utf8 "b") id isTagName_bold (.ofBytes hid)
  content := content
  gap := []
  isContent := .contentBytes (List.all_eq_true.1 hc)
  blank := .nil

theorem isTagName_paragraph : IsTagName (utf8 "p") := by decide

theorem allBlank_space : AllBlank [Byte.space] := by decide

/-- The element `<p x="1" data-eid="…"></p>`. -/
def numbered (id : Bytes)
    (hid : id.all (fun c => c != Byte.backslash && c != Byte.doubleQuote) = true) :
    ElementText where
  tag :=
    { name := utf8 "p"
      items := [([Byte.space], .quoted Byte.doubleQuote (utf8 "x") (utf8 "1")),
        ([Byte.space], markerItem id)]
      gap := []
      slashed := false
      isName := isTagName_paragraph
      valid := List.forall_mem_cons.2 ⟨⟨List.cons_ne_nil _ _, allBlank_space,
          Item.valid_quoted rfl (by decide) (.ofBytes (by decide))⟩,
        List.forall_mem_singleton.2 ⟨List.cons_ne_nil _ _, allBlank_space,
          Item.valid_quoted rfl isItemName_attributeName (.ofBytes hid)⟩⟩
      blank := .nil }
  content := []
  gap := []
  isContent := .contentNil
  blank := .nil

theorem movable_numbered {source ide idt content : Bytes}
    {he : ide.all (fun c => c != Byte.backslash && c != Byte.doubleQuote) = true}
    {ht : idt.all (fun c => c != Byte.backslash && c != Byte.doubleQuote) = true}
    {hc : content.all Part.content.isPlain = true}
    (apart : Apart source (numbered ide he) (boldWith idt content ht hc))
    (once : Bytes.times (Marker.ofId ide) source = 1)
    (onceTarget : Bytes.times (Marker.ofId idt) source = 1) :
    Movable source (numbered ide he) (boldWith idt content ht hc) ide idt := by
  refine ⟨apart, ?_, ?_, once, onceTarget⟩
  · refine ⟨⟨[([Byte.space], .quoted Byte.doubleQuote (utf8 "x") (utf8 "1"))], [Byte.space],
      [], rfl⟩, ?_⟩
    change Byte.less ∉ utf8 "p x=\"1\" "
    decide
  · refine ⟨⟨[], [Byte.space], [], rfl⟩, ?_⟩
    change Byte.less ∉ utf8 "b "
    decide

/-- A move after which the marker of an id stands twice, although the text without the element
moved holds the marker of the target once and that of the element not at all. -/
def DoublesMarker (side : Side) (source id target doubled : String) : Prop :=
  (∃ e t, Movable (utf8 source) e t (utf8 id) (utf8 target)) ∧
    (∃ left, (Mutation.removeElement id).apply (utf8 source) = .ok left ∧
      Bytes.times (Marker.ofId (utf8 id)) left = 0 ∧
      Bytes.times (Marker.ofId (utf8 target)) left = 1) ∧
    ∃ new, (Mutation.moveElement id target side).apply (utf8 source) = .ok new ∧
      Bytes.times (Marker.ofId (utf8 doubled)) new = 2

/-- Where an element is taken away, the text around it may close up to a second marker of the
target, which is then taken for it. And a marker that holds a `<` or `>` may arise a second time
where the element moved meets new text: in front of it or between it and the target. -/
theorem move_spoils_marker :
    let closing := utf8
      "<i data-e<p x=\"1\" data-eid=\"e\"></p>id=\"t\"><b data-eid=\"t\"></b>"
    ((∃ e t, Movable closing e t (utf8 "e") (utf8 "t")) ∧
      (Mutation.moveElement "e" "t" .after).apply closing = .error (.unbalanced (utf8 "t"))) ∧
    DoublesMarker .after
      "<b data-eid=\"t\">data-eid=\"</b><p x=\"1\" data-eid=\"</b>\n<p x=\"></p>"
      "</b>\n<p x=" "t" "</b>\n<p x=" ∧
    DoublesMarker .after
      "<b data-eid=\"</b>\n<p x=\">data-eid=\"</b><p x=\"1\" data-eid=\"e\"></p>"
      "e" "</b>\n<p x=" "</b>\n<p x=" ∧
    DoublesMarker .before "data-eid=\"<b data-eid=\"t\"></b><p x=\"1\" data-eid=\"<p x=\"></p>"
      "<p x=" "t" "<p x=" ∧
    DoublesMarker .before "data-eid=\"<b data-eid=\"<p x=\"></b><p x=\"1\" data-eid=\"e\"></p>"
      "e" "<p x=" "<p x=" := by
  intro closing
  have closes : Movable closing (numbered (utf8 "e") (by decide))
      (boldWith (utf8 "t") [] (by decide) (by decide)) (utf8 "e") (utf8 "t") :=
    movable_numbered ⟨utf8 "<i data-e", utf8 "id=\"t\">", [], .inl (by decide +kernel)⟩
      (by decide +kernel) (by decide +kernel)
  refine ⟨⟨⟨_, _, closes⟩, by decide +kernel⟩, ?_, ?_, ?_, ?_⟩
  · have movable := @movable_numbered
      (utf8 "<b data-eid=\"t\">data-eid=\"</b><p x=\"1\" data-eid=\"</b>\n<p x=\"></p>")
      (utf8 "</b>\n<p x=") (utf8 "t") (utf8 "data-eid=\"") (by decide) (by decide) (by decide)
      ⟨[], [], [], .inr (by decide +kernel)⟩ (by decide +kernel) (by decide +kernel)
    exact ⟨⟨_, _, movable⟩, ⟨utf8 "<b data-eid=\"t\">data-eid=\"</b>", by decide +kernel⟩,
      utf8 "<b data-eid=\"t\">data-eid=\"</b>\n<p x=\"1\" data-eid=\"</b>\n<p x=\"></p>",
      by decide +kernel⟩
  · have movable := @movable_numbered
      (utf8 "<b data-eid=\"</b>\n<p x=\">data-eid=\"</b><p x=\"1\" data-eid=\"e\"></p>")
      (utf8 "e") (utf8 "</b>\n<p x=") (utf8 "data-eid=\"") (by decide) (by decide) (by decide)
      ⟨[], [], [], .inr (by decide +kernel)⟩ (by decide +kernel) (by decide +kernel)
    exact ⟨⟨_, _, movable⟩, ⟨utf8 "<b data-eid=\"</b>\n<p x=\">data-eid=\"</b>",
        by decide +kernel⟩,
      utf8 "<b data-eid=\"</b>\n<p x=\">data-eid=\"</b>\n<p x=\"1\" data-eid=\"e\"></p>",
      by decide +kernel⟩
  · have movable := @movable_numbered
      (utf8 "data-eid=\"<b data-eid=\"t\"></b><p x=\"1\" data-eid=\"<p x=\"></p>")
      (utf8 "<p x=") (utf8 "t") [] (by decide) (by decide) (by decide)
      ⟨utf8 "data-eid=\"", [], [], .inr (by decide +kernel)⟩ (by decide +kernel)
      (by decide +kernel)
    exact ⟨⟨_, _, movable⟩, ⟨utf8 "data-eid=\"<b data-eid=\"t\"></b>", by decide +kernel⟩,
      utf8 "data-eid=\"<p x=\"1\" data-eid=\"<p x=\"></p>\n<b data-eid=\"t\"></b>",
      by decide +kernel⟩
  · have movable := @movable_numbered
      (utf8 "data-eid=\"<b data-eid=\"<p x=\"></b><p x=\"1\" data-eid=\"e\"></p>")
      (utf8 "e") (utf8 "<p x=") [] (by decide) (by decide) (by decide)
      ⟨utf8 "data-eid=\"", [], [], .inr (by decide +kernel)⟩ (by decide +kernel)
      (by decide +kernel)
    exact ⟨⟨_, _, movable⟩, ⟨utf8 "data-eid=\"<b data-eid=\"<p x=\"></b>", by decide +kernel⟩,
      utf8 "data-eid=\"<p x=\"1\" data-eid=\"e\"></p>\n<b data-eid=\"<p x=\"></b>",
      by decide +kernel⟩

end MarkupEdit
