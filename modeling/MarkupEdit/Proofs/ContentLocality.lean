import MarkupEdit.Proofs.ElementEdits
import MarkupEdit.Proofs.Locality

/-!
Edits of an element as written depend on the element alone. Its content is divided into the same
runs of text wherever the element stands, since every child and block in it is passed as written.
-/

namespace MarkupEdit

theorem read_comment {k : Bytes} (hk : ¬ utf8 "-->" <:+: k) (i : Nat) (rest : Bytes) :
    Child.read i (commentText k ++ rest) = .unit (i + (commentText k).length) := by
  rw [Scan.commentText_append, Child.read, if_neg (by decide), if_pos rfl,
    if_pos List.head?_cons, List.drop_one, List.tail_cons, Scan.declarationEnd_commentText hk]
  rfl

theorem read_braces {k : Bytes} (hk : Markup .block k) (i : Nat) (rest : Bytes) :
    Child.read i (Byte.openBrace :: (k ++ Byte.closeBrace :: rest)) =
      .unit (i + (k.length + 2)) := by
  rw [Child.read, if_pos rfl, Scan.blockEnd_closed (Scan.passes_markup hk)]
  change Child.unit _ = _
  congr 1
  omega

theorem read_element {e : Bytes} (he : Markup .element e) (i : Nat) (rest : Bytes) :
    Child.read i (e ++ rest) = .unit (i + e.length) := by
  have passed : Scan.PassesElement e := Scan.passes_markup he
  obtain ⟨t, rfl⟩ := List.head?_eq_some_iff.1 passed.head
  have whole : Scan.elementEnd i (t ++ rest) = some (i + (Byte.less :: t).length) :=
    passed.whole i rest
  have notBang : (t ++ rest).head? ≠ some Byte.bang := by
    intro bang
    obtain ⟨u, split⟩ := List.head?_eq_some_iff.1 bang
    rw [split, Scan.elementEnd, if_neg (by decide), Scan.openTag?, if_neg (by decide)] at whole
    cases whole
  rw [List.cons_append, Child.read, if_neg (by decide), if_pos rfl, if_neg notBang, whole]
  rfl

theorem read_byte {c : UInt8} (hc : Part.content.isPlain c = true) (i : Nat) (t : Bytes) :
    Child.read i (c :: t) = .text := by
  simp only [Part.isPlain, Bool.not_eq_true', Bool.or_eq_false_iff, beq_eq_false_iff_ne] at hc
  rw [Child.read, if_neg hc.1, if_neg hc.2]

namespace Content

def shift (k : Nat) (content : Content) : Content :=
  ⟨content.runs.map fun run => (k + run.1, k + run.2), content.nested⟩

theorem run_shift (k start stop : Nat) :
    run (k + start) (k + stop) = (run start stop).map fun r => (k + r.1, k + r.2) := by
  by_cases h : start < stop
  · rw [run, run, if_pos h, if_pos (by omega)]
    rfl
  · rw [run, run, if_neg h, if_neg (by omega)]
    rfl

/-- A unit ends the run of text in front of it. -/
def behindUnit (start i : Nat) (later : Content) : Content := ⟨run start i ++ later.runs, true⟩

theorem shift_behindUnit (k start i : Nat) (later : Content) :
    behindUnit (k + start) (k + i) (later.shift k) = (behindUnit start i later).shift k := by
  simp only [behindUnit, shift, run_shift, List.map_append]

theorem scan?_end (stop start : Nat) (s : Bytes) :
    scan? stop start stop s = some ⟨run start stop, false⟩ := by
  cases s with
  | nil => rw [scan?]
  | cons c t => rw [scan?, if_pos (Nat.le_refl stop)]

theorem scan?_unit {u s : Bytes} (ne : u ≠ []) {stop start i : Nat}
    (read : Child.read i (u ++ s) = .unit (i + u.length)) (before : i < stop) :
    scan? stop start i (u ++ s) =
      (scan? stop (i + u.length) (i + u.length) s).map (behindUnit start i) := by
  obtain ⟨c, t, rfl⟩ := List.exists_cons_of_ne_nil ne
  have behind := Scan.goOn_append i (c :: t) s
  rw [List.cons_append, Scan.goOn_cons (by simp)] at behind
  rw [List.cons_append] at read ⊢
  rw [scan?, if_neg (by omega), read]
  simp only [behind]
  cases scan? stop (i + (c :: t).length) (i + (c :: t).length) s with
  | none => rfl
  | some later => rfl

/-- What is found in content does not depend on what stands behind it. -/
def Local (c : Bytes) : Prop :=
  ∀ k stop start i s s', i + c.length = stop →
    scan? (k + stop) (k + start) (k + i) (c ++ s) = (scan? stop start i (c ++ s')).map (shift k)

theorem local_unit {u b : Bytes} (ne : u ≠ [])
    (read : ∀ i s, Child.read i (u ++ s) = .unit (i + u.length)) (hb : Local b) :
    Local (u ++ b) := by
  intro k stop start i s s' whole
  have width := List.length_pos_iff.2 ne
  rw [List.length_append] at whole
  rw [List.append_assoc, List.append_assoc, scan?_unit ne (read _ _) (by omega),
    scan?_unit ne (read _ _) (by omega), Nat.add_assoc k, hb k stop _ _ s s' (by omega)]
  cases scan? stop (i + u.length) (i + u.length) (b ++ s') with
  | none => rfl
  | some later => exact congrArg some (shift_behindUnit k start i later)

theorem local_markup {part : Part} {c : Bytes} (h : Markup part c) :
    part = .content → Local c := by
  induction h with
  | contentNil =>
      intro _ k stop start i s s' whole
      have here : i = stop := whole
      subst here
      rw [List.nil_append, List.nil_append, scan?_end, scan?_end, run_shift]
      rfl
  | @contentByte c b hc hb ih =>
      intro _ k stop start i s s' whole
      rw [List.length_cons] at whole
      rw [List.cons_append, List.cons_append, scan?, scan?, if_neg (by omega), if_neg (by omega),
        read_byte hc, read_byte hc]
      exact ih rfl k stop start (i + 1) s s' (by omega)
  | @contentComment k b hk hb ih =>
      intro _
      exact local_unit (List.cons_ne_nil _ _) (read_comment hk) (ih rfl)
  | @contentBraces k b hk hb _ ih =>
      intro _
      have split : Byte.openBrace :: k ++ Byte.closeBrace :: b =
          (Byte.openBrace :: (k ++ [Byte.closeBrace])) ++ b := by simp
      rw [split]
      refine local_unit (List.cons_ne_nil _ _) (fun i s => ?_) (ih rfl)
      have read := read_braces hk i s
      simpa using read
  | @contentElement e b he hb _ ih =>
      intro _
      have head : e.head? = some Byte.less := (Scan.passes_markup he).head
      have ne : e ≠ [] := by
        intro empty
        simp [empty] at head
      exact local_unit ne (read_element he) (ih rfl)
  | _ =>
      intro other
      cases other

theorem between?_local {c : Bytes} (hc : Markup .content c) (p u s s' : Bytes) :
    between? (p ++ (u ++ (c ++ s))) (p.length + u.length) (p.length + (u.length + c.length)) =
      (between? (u ++ (c ++ s')) u.length (u.length + c.length)).map (shift p.length) := by
  rw [between?, between?, List.drop_length_add_append, List.drop_left, List.drop_left]
  exact local_markup hc rfl p.length _ _ _ s s' rfl

end Content

theorem findInRuns?_local {u : Bytes} {runs : List (Nat × Nat)}
    (inside : ∀ run ∈ runs, run.2 ≤ u.length) (p s sought : Bytes) :
    Edit.findInRuns? (p ++ (u ++ s)) sought
        (runs.map fun run => (p.length + run.1, p.length + run.2)) =
      (Edit.findInRuns? u sought runs).map (p.length + ·) := by
  induction runs with
  | nil => rfl
  | cons run rest ih =>
      have later := ih fun r mem => inside r (List.mem_cons_of_mem run mem)
      have same := slice_context (inside run List.mem_cons_self) p s run.1
      simp only [Edit.findInRuns?] at later ⊢
      rw [List.map_cons, List.findSome?_cons, List.findSome?_cons, same, later]
      cases (u.slice run.1 run.2).index? sought with
      | none => rfl
      | some width => simp only [Option.map_some, Nat.add_assoc]

theorem replaceTrimmed_local {u : Bytes} {stop : Nat} (inside : stop ≤ u.length)
    (p s : Bytes) (start : Nat) (replacement : Bytes) :
    Edit.replaceTrimmed (p ++ (u ++ s)) (p.length + start) (p.length + stop) replacement =
      (Edit.replaceTrimmed u start stop replacement).shift p.length := by
  simp only [Edit.replaceTrimmed, slice_context inside]
  split
  · rfl
  · simp only [Patch.shift, Nat.add_assoc]

theorem less_not_mem_close {name gap : Bytes} (hn : ∀ c ∈ name, isNameByte c = true)
    (hg : AllBlank gap) : Byte.less ∉ Byte.slash :: (name ++ (gap ++ [Byte.greater])) := by
  intro mem
  have cases' : Byte.less = Byte.slash ∨ Byte.less ∈ name ∨ Byte.less ∈ gap ∨
      Byte.less = Byte.greater := by
    simpa using mem
  obtain h | h | h | h := cases'
  · exact absurd h (by decide)
  · exact absurd (hn _ h) (by decide)
  · exact absurd (hg _ h) (by decide)
  · exact absurd h (by decide)

/-- The last `</` of a text that ends in a closing tag is the one of that tag. -/
theorem lastIndex?_closeTagText {name gap : Bytes} (hn : ∀ c ∈ name, isNameByte c = true)
    (hg : AllBlank gap) (u : Bytes) :
    Bytes.lastIndex? (u ++ closeTagText name gap) (utf8 "</") = some u.length := by
  have stands : utf8 "</" <+: (u ++ closeTagText name gap).drop u.length := by
    rw [List.drop_left]
    exact ⟨name ++ (gap ++ [Byte.greater]), rfl⟩
  obtain ⟨m, last⟩ := Bytes.lastIndex?_of_stands utf8_close_ne_nil stands
  obtain ⟨here, greatest⟩ := Bytes.lastIndex?_eq_some utf8_close_ne_nil last
  have le := greatest _ stands
  rw [last]
  congr 1
  apply Nat.le_antisymm _ le
  apply Nat.le_of_not_lt
  intro beyond
  -- A later mark would hold a `<` of the name or the white space behind the first one.
  apply less_not_mem_close hn hg
  rw [show m = u.length + (m - u.length - 1 + 1) by omega, List.drop_length_add_append,
    closeTagText, List.drop_succ_cons] at here
  obtain ⟨r, same⟩ := here
  refine List.mem_of_mem_drop (i := m - u.length - 1) ?_
  rw [← same]
  exact List.mem_cons_self

namespace ElementText

variable (e : ElementText)

/-- The last `</` of an element that does not close itself is the one of its closing tag. -/
theorem lastIndex?_close (open' : e.tag.closesItself = false) :
    Bytes.lastIndex? e.text (utf8 "</") = some (e.tag.text.length + e.content.length) := by
  rw [text, tail, if_neg (by simp [open']), ← List.append_assoc,
    lastIndex?_closeTagText e.tag.isName.all e.blank, List.length_append]

/-- Where an element stands, from offset `k` on. -/
def locatedAt (k : Nat) : Location where
  start := k
  stop := k + e.text.length
  openEnd := k + e.tag.text.length
  outer := e.text
  tag := e.tag.name
  classes := Classes.literal? (e.tag.written k)
  selfClosing := e.tag.closesItself
  closed := true

theorem innerRange?_open (open' : e.tag.closesItself = false) (k : Nat) :
    (e.locatedAt k).innerRange? =
      some (k + e.tag.text.length, k + (e.tag.text.length + e.content.length)) := by
  simp only [Location.innerRange?, locatedAt, open', Bool.false_eq_true, false_or,
    Bool.true_eq_false, if_false, e.lastIndex?_close open', Option.map_some]

end ElementText

/-- An element whose marker stands once in a text is found there by its id. -/
theorem found_in_context {e : ElementText} {id : Bytes} (place : MarkerPlace e.tag id)
    (clear : Byte.less ∉ place.lead) {p s : Bytes}
    (once : Bytes.times (Marker.ofId id) (p ++ (e.text ++ s)) = 1) :
    findTag (p ++ (e.text ++ s)) id = .ok (e.tag.reading p.length) ∧
      locate? (p ++ (e.text ++ s)) id = some (e.locatedAt p.length) := by
  have split : p ++ (e.text ++ s) = p ++ (e.tag.text ++ (e.tail ++ s)) := by
    rw [ElementText.text, List.append_assoc]
  have tagOnce := once
  rw [split] at tagOnce
  have found := locateTag?_markerPlace place clear p (e.tail ++ s) tagOnce
  rw [← split] at found
  refine ⟨findTag_eq_ok.2 found, ?_⟩
  rw [locate?, found, Option.map_some, location_element]
  rfl

theorem times_alone {e : ElementText} {id : Bytes} (place : MarkerPlace e.tag id) {p s : Bytes}
    (once : Bytes.times (Marker.ofId id) (p ++ (e.text ++ s)) = 1) :
    Bytes.times (Marker.ofId id) e.text = 1 := by
  have most := Bytes.times_le_context (Marker.ofId id) p e.text s
  have least : 0 < Bytes.times (Marker.ofId id) e.text := by
    rw [ElementText.text, place.text_eq, ← List.cons_append, List.append_assoc, List.append_assoc]
    exact Bytes.times_pos (ofId_ne_nil _) _ _
  omega

namespace Edit

variable {e : ElementText} {id : Bytes} {p s : Bytes}
  (here : locate? (p ++ (e.text ++ s)) id = some (e.locatedAt p.length))
  (alone : locate? e.text id = some (e.locatedAt 0))

include here alone

theorem replaceElement_local (markup : Bytes) :
    replaceElement (p ++ (e.text ++ s)) id markup =
      (replaceElement e.text id markup).shift p.length := by
  rw [replaceElement, replaceElement, locateClosed, locateClosed, here, alone]
  simp only [if_true, bind, Except.bind, pure, Except.pure, Plan.shift, Except.map,
    List.map_cons, List.map_nil, Patch.shift, ElementText.locatedAt, Nat.zero_add, Nat.add_zero]

theorem contentOf_local :
    contentOf (p ++ (e.text ++ s)) id =
      (contentOf e.text id).map fun (start, stop, content) =>
        (p.length + start, p.length + stop, content.shift p.length) := by
  have selfClosing (k : Nat) : (e.locatedAt k).selfClosing = e.tag.closesItself := rfl
  rw [contentOf, contentOf, here, alone]
  cases open' : e.tag.closesItself with
  | true =>
      simp only [selfClosing, open', if_true]
      rfl
  | false =>
      have close : e.text = e.tag.text ++ (e.content ++ closeTagText e.tag.name e.gap) := by
        rw [ElementText.text, ElementText.tail, if_neg (by simp [open'])]
      have divided : Content.between? (p ++ (e.text ++ s)) (p.length + e.tag.text.length)
          (p.length + (e.tag.text.length + e.content.length)) =
          (Content.between? e.text e.tag.text.length
            (e.tag.text.length + e.content.length)).map (Content.shift p.length) := by
        have divided := Content.between?_local e.isContent p e.tag.text
          (closeTagText e.tag.name e.gap ++ s) (closeTagText e.tag.name e.gap)
        simpa only [close, List.append_assoc] using divided
      simp only [selfClosing, open', Bool.false_eq_true, if_false, e.innerRange?_open open',
        Nat.zero_add, divided]
      cases Content.between? e.text e.tag.text.length
          (e.tag.text.length + e.content.length) with
      | none => rfl
      | some content => rfl

theorem setText_local (new : Bytes) (old : Option Bytes) :
    setText (p ++ (e.text ++ s)) id new old = (setText e.text id new old).shift p.length := by
  rw [setText, setText, contentOf_local here alone]
  cases found : contentOf e.text id with
  | error refusal => rfl
  | ok range =>
      obtain ⟨start, stop, content⟩ := range
      obtain ⟨inside, runs⟩ := contentOf_inside found
      simp only [Except.map, bind, Except.bind]
      cases old.filter (!·.isEmpty) with
      | some sought =>
          have place := findInRuns?_local runs p s sought
          simp only [Content.shift, place]
          cases findInRuns? e.text sought content.runs with
          | none => rfl
          | some offset =>
              simp only [Option.map_some, Nat.add_assoc]
              rfl
      | none =>
          simp only [Content.shift, replaceTrimmed_local inside]
          split
          · rfl
          · rfl

end Edit

end MarkupEdit
