import MarkupEdit.Proofs.ContentRuns
import MarkupEdit.Proofs.MarkersKept
import MarkupEdit.Proofs.TidyForest
import MarkupEdit.Proofs.WhiteSpace

/-!
What an edit of text does to an element as written. It changes one run of the text directly inside
the element and leaves all children, comments and blocks as they are; what it writes holds no mark
and stands for the new text, so the element is found afterwards as it was before.
-/

namespace MarkupEdit

def references : List (Bytes × UInt8) :=
  [(utf8 "&amp;", Byte.ampersand), (utf8 "&lt;", Byte.less), (utf8 "&gt;", Byte.greater),
    (utf8 "&#123;", Byte.openBrace), (utf8 "&#125;", Byte.closeBrace)]

/-- What a text with references stands for. -/
def unescapeText : Bytes → Bytes
  | [] => []
  | c :: t =>
    match references.find? (·.1.isPrefixOf (c :: t)) with
    | none => c :: unescapeText t
    | some reference => reference.2 :: unescapeText (t.drop (reference.1.length - 1))
termination_by s => s.length
decreasing_by all_goals (simp only [List.length_cons, List.length_drop]; omega)

theorem reference_eq_of_begins :
    ∀ r ∈ references, ∀ r' ∈ references, r.1 <+: r'.1 → r = r' := by decide +kernel

theorem head?_reference : ∀ r ∈ references, r.1.head? = some Byte.ampersand := by decide +kernel

theorem unmarked_reference : ∀ r ∈ references, Unmarked r.1 := by decide +kernel

theorem escapeByte_cases (b : UInt8) :
    (Edit.escapeByte b, b) ∈ references ∨
      Edit.escapeByte b = [b] ∧ isMark b = false ∧ b ≠ Byte.ampersand := by
  rw [Edit.escapeByte]
  split
  next same => exact .inl (by simp [references, same])
  split
  next same => exact .inl (by simp [references, same])
  split
  next same => exact .inl (by simp [references, same])
  split
  next same => exact .inl (by simp [references, same])
  split
  next same => exact .inl (by simp [references, same])
  next ampersand less greater opens closes =>
    exact .inr ⟨rfl, by simp [isMark, less, greater, opens, closes], ampersand⟩

theorem unmarked_escapeText (text : Bytes) : Unmarked (Edit.escapeText text) := by
  induction text with
  | nil => exact .nil
  | cons b rest ih =>
      rw [Edit.escapeText, List.flatMap_cons]
      refine .append ?_ ih
      rcases escapeByte_cases b with mem | ⟨same, unmarked, -⟩
      · exact unmarked_reference _ mem
      · rw [same]
        exact .cons unmarked .nil

theorem unescapeText_reference {reference : Bytes × UInt8} (mem : reference ∈ references)
    (s : Bytes) : unescapeText (reference.1 ++ s) = reference.2 :: unescapeText s := by
  have found : references.find? (·.1.isPrefixOf (reference.1 ++ s)) = some reference := by
    cases found : references.find? (·.1.isPrefixOf (reference.1 ++ s)) with
    | none =>
        have absent := List.find?_eq_none.1 found reference mem
        exact absurd (List.isPrefixOf_iff_prefix.2 (List.prefix_append _ _)) absent
    | some other =>
        have mem' := List.mem_of_find?_eq_some found
        have begins : other.1.isPrefixOf (reference.1 ++ s) = true :=
          @List.find?_some (Bytes × UInt8) (·.1.isPrefixOf (reference.1 ++ s)) _ _ found
        have longer := List.isPrefixOf_iff_prefix.1 begins
        rcases List.prefix_or_prefix_of_prefix longer (List.prefix_append _ s) with h | h
        · rw [reference_eq_of_begins _ mem' _ mem h]
        · rw [reference_eq_of_begins _ mem _ mem' h]
  cases split : reference.1 with
  | nil =>
      have head := head?_reference _ mem
      rw [split] at head
      cases head
  | cons c t =>
      rw [split, List.cons_append] at found
      rw [List.cons_append, unescapeText, found]
      dsimp only
      rw [split, List.length_cons, Nat.add_sub_cancel, List.drop_left]

theorem unescapeText_byte {b : UInt8} (other : b ≠ Byte.ampersand) (s : Bytes) :
    unescapeText (b :: s) = b :: unescapeText s := by
  have absent : references.find? (·.1.isPrefixOf (b :: s)) = none := by
    refine List.find?_eq_none.2 fun r mem begins => other ?_
    have head := head?_reference r mem
    obtain ⟨t, rest⟩ := List.isPrefixOf_iff_prefix.1 begins
    have same : (r.1 ++ t).head? = some b := by rw [rest, List.head?_cons]
    rw [List.head?_append, head] at same
    exact (Option.some.inj same).symm
  rw [unescapeText, absent]

/-- Undoing the references gives the text back. -/
theorem unescapeText_escapeText (text : Bytes) : unescapeText (Edit.escapeText text) = text := by
  induction text with
  | nil => rw [Edit.escapeText, List.flatMap_nil, unescapeText]
  | cons b rest ih =>
      rw [Edit.escapeText, List.flatMap_cons, ← Edit.escapeText]
      rcases escapeByte_cases b with mem | ⟨same, -, other⟩
      · rw [unescapeText_reference mem, ih]
      · rw [same, List.singleton_append, unescapeText_byte other, ih]

theorem directText_escapeText (text : Bytes) : DirectText (Edit.escapeText text) := by
  intro c mem
  have other := unmarked_escapeText text c mem
  simp only [isMark, Bool.or_eq_false_iff, beq_eq_false_iff_ne] at other
  simp [Part.isPlain, other]

/-- Where the marker of a tag stands once, the tag is found also with other text behind it. -/
theorem locateTag?_other_tail {tag : TagText} {id : Bytes} (place : MarkerPlace tag id)
    (clear : Byte.less ∉ place.lead) {p s : Bytes}
    (once : Bytes.times (Marker.ofId id) (p ++ (tag.text ++ s)) = 1) (s' : Bytes) :
    locateTag? (p ++ (tag.text ++ s')) id = some (tag.reading p.length) := by
  have front :
      Bytes.times (Marker.ofId id) ((p ++ Byte.less :: place.lead) ++ Marker.ofId id) = 1 := by
    rw [place.text_split, ← List.append_assoc] at once
    have most := Bytes.times_le_front (Marker.ofId id)
      ((p ++ Byte.less :: place.lead) ++ Marker.ofId id) (place.trail ++ s)
    have least := Bytes.times_pos (ofId_ne_nil id) (p ++ Byte.less :: place.lead) []
    rw [List.append_nil] at least
    omega
  obtain ⟨later, found⟩ := Bytes.occurrencesFrom_first (ofId_ne_nil id) front (place.trail ++ s') 0
  rw [← place.text_split, place.length_front, Nat.zero_add] at found
  have fresh := place.isFresh_offset p s'
  rw [locateTag?, Marker.offsets, Bytes.occurrences, found, List.filter_cons, if_pos fresh,
    List.findSome?_cons, owner?_markerPlace place clear]

namespace ElementText

def holding (e : ElementText) (body : Body) : ElementText :=
  { e with content := body.bytes, isContent := body.content }

variable {e : ElementText} {body : Body}

theorem holding_eq (laid : body.bytes = e.content) : e.holding body = e := by
  obtain ⟨tag, content, gap, isContent, blank⟩ := e
  dsimp only at laid
  subst laid
  rfl

theorem text_holding (opens : e.tag.closesItself = false) (body : Body) (p s : Bytes) :
    p ++ ((e.holding body).text ++ s) =
      (p ++ e.tag.text) ++ (body.bytes ++ (closeTagText e.tag.name e.gap ++ s)) := by
  have open' : (e.holding body).tag.closesItself = false := opens
  rw [text, tail, if_neg (by simp [open'])]
  simp only [holding, List.append_assoc]

theorem locate?_holding {id : Bytes} (place : MarkerPlace e.tag id)
    (clear : Byte.less ∉ place.lead) {p s : Bytes}
    (once : Bytes.times (Marker.ofId id) (p ++ (e.text ++ s)) = 1) (body : Body) :
    locate? (p ++ ((e.holding body).text ++ s)) id =
      some ((e.holding body).locatedAt p.length) := by
  rw [text, List.append_assoc] at once
  have found := locateTag?_other_tail place clear once ((e.holding body).tail ++ s)
  have split : p ++ ((e.holding body).text ++ s) =
      p ++ (e.tag.text ++ ((e.holding body).tail ++ s)) := by
    rw [text, List.append_assoc]
    rfl
  rw [locate?, split, found, Option.map_some, ← split]
  exact congrArg some (location_element (e.holding body) p s)

end ElementText

namespace Edit

variable {e : ElementText} {body : Body} {id p s : Bytes}

theorem contentOf_holding (opens : e.tag.closesItself = false)
    (located : locate? (p ++ ((e.holding body).text ++ s)) id =
      some ((e.holding body).locatedAt p.length)) :
    contentOf (p ++ ((e.holding body).text ++ s)) id =
      .ok ((p ++ e.tag.text).length, (p ++ e.tag.text).length + body.bytes.length,
        ⟨body.spans (p ++ e.tag.text).length, !body.units.isEmpty⟩) := by
  have range : ((e.holding body).locatedAt p.length).innerRange? =
      some ((p ++ e.tag.text).length, (p ++ e.tag.text).length + body.bytes.length) := by
    rw [(e.holding body).innerRange?_open opens, List.length_append, Nat.add_assoc]
    rfl
  have selfClosing : ((e.holding body).locatedAt p.length).selfClosing = false := opens
  rw [contentOf, located]
  simp only [selfClosing, range, Bool.false_eq_true, if_false]
  rw [Content.between?, ElementText.text_holding opens, List.drop_left, body.scan?_bytes]

/-- The ink of a text replaced, or all of it where it is white space. -/
inductive InkReplaced (written : Bytes) : Bytes → Bytes → Prop where
  | white {run : Bytes} (white : Bytes.White run) : InkReplaced written run written
  | ink {run lead trail : Bytes} (inked : ¬ Bytes.White run) (hl : Bytes.White lead)
      (ht : Bytes.White trail) (split : run = lead ++ (run.trim ++ trail)) :
      InkReplaced written run (lead ++ (written ++ trail))

theorem replaceTrimmed_run (x run y written : Bytes) :
    ∃ run', InkReplaced written run run' ∧ (DirectText run → DirectText written → DirectText run') ∧
      (replaceTrimmed (x ++ (run ++ y)) x.length (x.length + run.length) written).apply
        (x ++ (run ++ y)) = x ++ (run' ++ y) := by
  rw [replaceTrimmed, slice_append]
  dsimp only
  split
  next empty =>
    refine ⟨written, .white (Bytes.trim_eq_nil_iff.1 (List.isEmpty_iff.1 empty)), fun _ h => h, ?_⟩
    exact Patch.apply_between rfl rfl
  next inked =>
    obtain ⟨lead, trail, hlead, htrail, front, back⟩ := Bytes.trim_split run
    have split : run = lead ++ (run.trim ++ trail) := by rw [← back, ← front]
    have width : run.length - run.trimStart.length = lead.length := by
      have whole := congrArg List.length front
      rw [List.length_append] at whole
      omega
    refine ⟨_, .ink (fun white => inked (List.isEmpty_iff.2 (Bytes.trim_eq_nil_iff.2 white))) hlead
      htrail split, fun direct hw => ?_, ?_⟩
    · rw [split] at direct
      exact direct.left.append (hw.append direct.right.right)
    · have around : x ++ (run ++ y) = (x ++ lead) ++ (run.trim ++ (trail ++ y)) := by
        conv_lhs => rw [split]
        simp only [List.append_assoc]
      rw [width, around, Patch.apply_between (by rw [List.length_append]) rfl]
      simp only [List.append_assoc]

end Edit

namespace Body

/-- The edit can be made: where a text to replace is given, it stands in a run; where none is,
nothing but text stands there. -/
def Takes (body : Body) : Option Bytes → Prop
  | none => body.units = []
  | some sought => ∃ run ∈ body.runs, sought <:+: run

theorem eq_last {body : Body} (alone : body.units = []) :
    ∃ run, ∃ direct : DirectText run, body = .last run direct := by
  cases body with
  | last run direct => exact ⟨run, direct, rfl⟩
  | more run direct unit isUnit rest => cases alone

/-- Runs before and after an edit. One of them changes: where a text is sought, at the first place
in the first run that holds it. -/
inductive Rewritten (written : Bytes) : Option Bytes → List Bytes → List Bytes → Prop where
  | whole {run run' : Bytes} (ink : Edit.InkReplaced written run run') :
      Rewritten written none [run] [run']
  | sought {sought u v : Bytes} {earlier later : List Bytes}
      (run : ∀ run ∈ earlier, ¬ sought <:+: run)
      (place : ∀ u' v', u ++ (sought ++ v) = u' ++ (sought ++ v') → u.length ≤ u'.length) :
      Rewritten written (some sought) (earlier ++ (u ++ (sought ++ v)) :: later)
        (earlier ++ (u ++ (written ++ v)) :: later)

end Body

namespace Edit

variable {e : ElementText} {body : Body} {id p s : Bytes} {old : Option Bytes}

/-- An edit with a text to replace. -/
theorem setText_sought {sought : Bytes} (new : Bytes)
    (asked : old.filter (!·.isEmpty) = some sought)
    (opens : e.tag.closesItself = false)
    (located : locate? (p ++ ((e.holding body).text ++ s)) id =
      some ((e.holding body).locatedAt p.length)) :
    (setText (p ++ ((e.holding body).text ++ s)) id new old = .error (.ambiguousText id) ∧
        ∀ run ∈ body.runs, ¬ sought <:+: run) ∨
      ∃ front back, ∃ spot : body.Spot sought front back, spot.First ∧
        setText (p ++ ((e.holding body).text ++ s)) id new old =
          .ok [⟨((p ++ e.tag.text) ++ front).length,
            ((p ++ e.tag.text) ++ front).length + sought.length, escapeText new⟩] := by
  have ne : sought ≠ [] := by
    have kept := (Option.filter_eq_some_iff.1 asked).2
    simpa using kept
  rw [setText, contentOf_holding opens located, ElementText.text_holding opens]
  simp only [bind, Except.bind, asked]
  rcases body.findInRuns?_spans ne (p ++ e.tag.text) (closeTagText e.tag.name e.gap ++ s) with
    ⟨none, absent⟩ | ⟨front, back, spot, first, found⟩
  · rw [none]
    exact .inl ⟨rfl, absent⟩
  · rw [found]
    exact .inr ⟨front, back, spot, first, rfl⟩

/-- An edit without a text to replace. -/
theorem setText_whole (new : Bytes) (asked : old.filter (!·.isEmpty) = none)
    (opens : e.tag.closesItself = false)
    (located : locate? (p ++ ((e.holding body).text ++ s)) id =
      some ((e.holding body).locatedAt p.length)) :
    setText (p ++ ((e.holding body).text ++ s)) id new old =
      if body.units = [] then
        .ok [replaceTrimmed (p ++ ((e.holding body).text ++ s)) (p ++ e.tag.text).length
          ((p ++ e.tag.text).length + body.bytes.length) (escapeText new)]
      else .error (.ambiguousText id) := by
  rw [setText, contentOf_holding opens located]
  simp only [bind, Except.bind, asked]
  cases body.units with
  | nil => rfl
  | cons unit rest => rfl

/-- An edit is made where it can be, and the runs tell what it changes. -/
theorem setText_holding (new : Bytes) (old : Option Bytes) (opens : e.tag.closesItself = false)
    (located : locate? (p ++ ((e.holding body).text ++ s)) id =
      some ((e.holding body).locatedAt p.length)) :
    let source := p ++ ((e.holding body).text ++ s)
    let edited := (setText source id new old).map source.patch
    let sought := old.filter (!·.isEmpty)
    (¬ body.Takes sought → edited = .error (.ambiguousText id)) ∧
      (body.Takes sought → ∃ after : Body, edited = .ok (p ++ ((e.holding after).text ++ s)) ∧
        after.units = body.units ∧
        Body.Rewritten (escapeText new) sought body.runs after.runs) := by
  intro source edited sought
  have written := directText_escapeText new
  cases asked : sought with
  | none =>
      have planned := setText_whole new asked opens located
      constructor
      · intro (others : ¬ body.units = [])
        rw [if_neg others] at planned
        simp only [edited, source, planned]
        rfl
      · intro (alone : body.units = [])
        rw [if_pos alone] at planned
        obtain ⟨run, direct, rfl⟩ := Body.eq_last alone
        obtain ⟨run', ink, direct', applied⟩ := replaceTrimmed_run (p ++ e.tag.text) run
          (closeTagText e.tag.name e.gap ++ s) (escapeText new)
        refine ⟨.last run' (direct' direct written), ?_, rfl, .whole ink⟩
        simp only [edited, source, planned]
        rw [ElementText.text_holding opens, ElementText.text_holding opens]
        exact congrArg Except.ok applied
  | some text =>
      rcases setText_sought new asked opens located with
        ⟨planned, absent⟩ | ⟨front, back, spot, first, planned⟩
      · refine ⟨fun _ => ?_, fun ⟨run, mem, stands⟩ => absurd stands (absent run mem)⟩
        simp only [edited, source, planned]
        rfl
      · have takes : body.Takes (some text) := by
          refine ⟨spot.u ++ (text ++ spot.v), by simp [spot.runs], spot.u, spot.v, ?_⟩
          rw [List.append_assoc]
        refine ⟨fun refused => absurd takes refused, fun _ => ?_⟩
        obtain ⟨after, bytes, units, runs⟩ := spot.put (escapeText new) written
        refine ⟨after, ?_, units, ?_⟩
        · have around (t : Bytes) : p ++ e.tag.text ++ (front ++ (t ++ back) ++
              (closeTagText e.tag.name e.gap ++ s)) = (p ++ e.tag.text ++ front) ++
                (t ++ (back ++ (closeTagText e.tag.name e.gap ++ s))) := by
            simp only [List.append_assoc]
          simp only [edited, source, planned]
          rw [ElementText.text_holding opens, ElementText.text_holding opens, spot.bytes, bytes,
            around, around]
          exact congrArg Except.ok (Patch.apply_between rfl rfl)
        · rw [spot.runs, runs]
          exact .sought first.run first.place

/-- Let an element carry a marker that stands in the text once, with no `<` between its own and
the marker. Its content can be laid out as runs of text with units between them, and an edit of
its text changes one run alone. -/
theorem setText_rewritten (e : ElementText) (place : MarkerPlace e.tag id)
    (clear : Byte.less ∉ place.lead) (opens : e.tag.closesItself = false) (p s : Bytes)
    (once : Bytes.times (Marker.ofId id) (p ++ (e.text ++ s)) = 1) :
    (∃ body : Body, body.bytes = e.content) ∧
      ∀ body : Body, body.bytes = e.content → ∀ (new : Bytes) (old : Option Bytes),
        let source := p ++ (e.text ++ s)
        let edited := (setText source id new old).map source.patch
        let sought := old.filter (!·.isEmpty)
        (¬ body.Takes sought → edited = .error (.ambiguousText id)) ∧
        (body.Takes sought → ∃ after : Body,
          edited = .ok (p ++ ((e.holding after).text ++ s)) ∧ after.units = body.units ∧
          Body.Rewritten (escapeText new) sought body.runs after.runs ∧
          locate? source id = some (e.locatedAt p.length) ∧
          locate? (p ++ ((e.holding after).text ++ s)) id =
            some ((e.holding after).locatedAt p.length)) ∧
        Unmarked (escapeText new) ∧ unescapeText (escapeText new) = new := by
  refine ⟨Body.exists_body e.isContent rfl, ?_⟩
  intro body laid new old source edited sought
  have located := e.locate?_holding place clear once
  have here := located body
  have made := setText_holding new old opens here
  rw [ElementText.holding_eq laid] at here made
  refine ⟨made.1, fun takes => ?_, unmarked_escapeText new, unescapeText_escapeText new⟩
  obtain ⟨after, text, units, runs⟩ := made.2 takes
  exact ⟨after, text, units, runs, here, located after⟩

end Edit

theorem directText_b : DirectText (utf8 "b") := by decide

theorem markup_single_i : Markup .element (openTagText (utf8 "i") [] true) :=
  .single (by decide) rfl .attributesNil (.nil true)

theorem directText_nil : DirectText [] := nofun

/-- The content `b<i/>` laid out. -/
def paragraphBody : Body :=
  .more (utf8 "b") directText_b (openTagText (utf8 "i") [] true) (.element markup_single_i)
    (.last [] directText_nil)

/-- Text that looks like a marked tag comes to stand in front of the child. -/
theorem paragraph_rewritten :
    let front := utf8 "\x7b'<q"
    let back := utf8 "\"<p"
    let source := front ++ (paragraph.text ++ back)
    let new := utf8 "<i data-eid=\"a\">"
    let result := utf8 "\x7b'<q<p data-eid=\"a\">&lt;i data-eid=\"a\"&gt;<i/></p>\"<p"
    Byte.less ∉ paragraphPlace.lead ∧ paragraph.tag.closesItself = false ∧
      Bytes.times (Marker.ofId (utf8 "a")) source = 1 ∧ paragraphBody.bytes = paragraph.content ∧
      (Edit.setText source (utf8 "a") new none).map source.patch =
        .error (.ambiguousText (utf8 "a")) ∧
      (Edit.setText source (utf8 "a") new (some (utf8 "b"))).map source.patch = .ok result ∧
      ∃ after : Body, result = front ++ ((paragraph.holding after).text ++ back) ∧
        after.units = [utf8 "<i/>"] ∧
        Body.Rewritten (Edit.escapeText new) (some (utf8 "b")) [utf8 "b", []] after.runs ∧
        locate? result (utf8 "a") = some ((paragraph.holding after).locatedAt 4) := by
  intro front back source new result
  have clear : Byte.less ∉ paragraphPlace.lead := by decide
  have opens : paragraph.tag.closesItself = false := by decide
  have once : Bytes.times (Marker.ofId (utf8 "a")) source = 1 := by decide +kernel
  have laid : paragraphBody.bytes = paragraph.content := by decide
  have edited : (Edit.setText source (utf8 "a") new (some (utf8 "b"))).map source.patch =
      .ok result := by decide +kernel
  have made := (Edit.setText_rewritten paragraph paragraphPlace clear opens front back once).2
    paragraphBody laid new
  have refused := (made none).1 (show ¬ paragraphBody.units = [] by decide)
  refine ⟨clear, opens, once, laid, refused, edited, ?_⟩
  obtain ⟨after, text, units, runs, -, located⟩ :=
    (made (some (utf8 "b"))).2.1 ⟨utf8 "b", by decide, List.infix_rfl⟩
  have same : result = front ++ ((paragraph.holding after).text ++ back) :=
    Except.ok.inj (edited.symm.trans text)
  refine ⟨after, same, units, runs, ?_⟩
  rw [same]
  exact located

end MarkupEdit
