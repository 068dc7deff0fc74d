import MarkupEdit.Proofs.Neighbours
import MarkupEdit.Proofs.TidyForest

/-!
In a tidy document the neighbours found without a tree are those in the tree. The search for the
parent comes back over whole elements and comments unchanged, and so does the one for the end of
the parent; the walk from the one place to the other lists the children of the parent.
-/

namespace MarkupEdit.Siblings

theorem backward_zero (text : Bytes) : Place.backward text 0 = [] := by
  rw [Place.backward_eq, Nat.zero_min]
  rfl

/-- A byte and all places before it, where the text in front of the byte is `u`. -/
theorem backward_concat (u : Bytes) (c : UInt8) (w : Bytes) :
    Place.backward (u ++ c :: w) (u.length + 1) =
      ⟨u.length, c :: w⟩ :: Place.backward (u ++ c :: w) u.length := by
  rw [Place.backward_succ (by simp), Place.of, List.drop_left]

theorem standsAt_backward (c : UInt8) (v w : Bytes) :
    standsAt c (Place.backward (v ++ w) v.length) = true ↔ v.getLast? = some c := by
  rcases List.eq_nil_or_concat' v with rfl | ⟨u, d, rfl⟩
  · rw [List.length_nil, backward_zero, standsAt]
    simp
  · rw [List.length_append, List.append_assoc, List.singleton_append, List.length_singleton,
      backward_concat, List.getLast?_concat, standsAt]
    simp

/-- What does not end like a comment is not taken for one. -/
theorem commentStart?_eq_none {v : Bytes} (h : ¬ utf8 "--" <:+ v) (w : Bytes) :
    commentStart? (Place.backward (v ++ w) v.length) = none := by
  rw [commentStart?, if_neg]
  rintro ⟨last, before⟩
  rw [standsAt_backward] at last
  obtain ⟨u, rfl⟩ := List.getLast?_eq_some_iff.1 last
  rw [List.length_append, List.append_assoc, List.singleton_append, List.length_singleton,
    backward_concat, List.drop_one, List.tail_cons, standsAt_backward] at before
  obtain ⟨u, rfl⟩ := List.getLast?_eq_some_iff.1 before
  exact h ⟨u, by simp; rfl⟩

theorem parentStart_byte {c : UInt8} (h : isMark c = false) (u w : Bytes) (before depth : Nat) :
    parentStart before depth (Place.backward (u ++ c :: w) (u.length + 1)) =
      parentStart before depth (Place.backward (u ++ c :: w) u.length) := by
  simp only [isMark, Bool.or_eq_false_iff, beq_eq_false_iff_ne] at h
  obtain ⟨⟨⟨less, greater⟩, -⟩, close⟩ := h
  rw [backward_concat, parentStart]
  dsimp only
  rw [if_neg greater, if_neg close, if_neg less]

theorem parentStart_greater {u : Bytes} (h : ¬ utf8 "--" <:+ u) (w : Bytes) (before depth : Nat) :
    parentStart before depth (Place.backward (u ++ Byte.greater :: w) (u.length + 1)) =
      parentStart before depth (Place.backward (u ++ Byte.greater :: w) u.length) := by
  rw [backward_concat, parentStart]
  dsimp only
  rw [if_pos rfl, commentStart?_eq_none h]

/-- From the end of a comment the search goes on in front of its beginning. -/
theorem parentStart_commentEnd {u w : Bytes} {start : Nat}
    (found : commentStart? (Place.backward (u ++ Byte.greater :: w) u.length) = some start)
    (le : start ≤ u.length) (before depth : Nat) :
    parentStart before depth (Place.backward (u ++ Byte.greater :: w) (u.length + 1)) =
      parentStart before depth (Place.backward (u ++ Byte.greater :: w) start) := by
  rw [backward_concat, parentStart]
  dsimp only
  rw [if_pos rfl, found]
  dsimp only
  rw [Place.drop_backward le (List.prefix_append _ _).length_le]

/-- Where the search ends after it has read a tag. -/
def afterTurn (before depth : Nat) (places : List Place) : Turn → Nat
  | .neither => parentStart before depth places
  | .closes => parentStart before (depth + 1) places
  | .opens stop => if depth = 0 then stop else parentStart before (depth - 1) places

theorem parentStart_less (u w : Bytes) (before depth : Nat) :
    parentStart before depth (Place.backward (u ++ Byte.less :: w) (u.length + 1)) =
      afterTurn before depth (Place.backward (u ++ Byte.less :: w) u.length)
        (turnAt before u.length w) := by
  rw [backward_concat, parentStart]
  dsimp only
  rw [if_neg (by decide), if_neg (by decide), if_pos rfl]
  cases turnAt before u.length w with
  | neither => rfl
  | closes => rfl
  | opens stop => rfl

/-- Going back over `b`, a search for the parent comes from behind it to the front unchanged,
whatever stands around. -/
def PassedBack (b : Bytes) : Prop :=
  ∀ u w before depth, (u ++ b).length ≤ before →
    parentStart before depth (Place.backward (u ++ (b ++ w)) (u ++ b).length) =
      parentStart before depth (Place.backward (u ++ (b ++ w)) u.length)

theorem PassedBack.append {b c : Bytes} (hb : PassedBack b) (hc : PassedBack c) :
    PassedBack (b ++ c) := by
  intro u w before depth le
  have inner := hc (u ++ b) w before depth (by rwa [List.append_assoc])
  have outer := hb u (c ++ w) before depth
    (Nat.le_trans (by simp only [List.length_append]; omega) le)
  simp only [List.append_assoc] at inner outer ⊢
  rw [inner, outer]

theorem PassedBack.byte {c : UInt8} (h : isMark c = false) : PassedBack [c] := by
  intro u w before depth le
  rw [List.length_append, List.length_singleton, List.singleton_append, parentStart_byte h]

theorem PassedBack.unmarked {b : Bytes} (h : Unmarked b) : PassedBack b := by
  induction b with
  | nil =>
      intro u w before depth le
      rw [List.append_nil]
  | cons c t ih =>
      obtain ⟨first, later⟩ := List.forall_mem_cons.1 h
      exact (PassedBack.byte first).append (ih later)

/-- A tag is passed back to its `<`, where it is read. -/
theorem parentStart_angled {b : Bytes} (angled : Angled b) (u w : Bytes) {before : Nat}
    (le : (u ++ b).length ≤ before) (depth : Nat) :
    parentStart before depth (Place.backward (u ++ (b ++ w)) (u ++ b).length) =
      afterTurn before depth (Place.backward (u ++ (b ++ w)) u.length)
        (turnAt before u.length (b.tail ++ w)) := by
  obtain ⟨body, rfl, unmarked, noComment⟩ := angled
  have split : u ++ (Byte.less :: (body ++ [Byte.greater]) ++ w) =
      (u ++ Byte.less :: body) ++ Byte.greater :: w := by simp
  have width : (u ++ Byte.less :: (body ++ [Byte.greater])).length =
      (u ++ Byte.less :: body).length + 1 := by
    simp only [List.length_append, List.length_cons, List.length_nil]
    omega
  have notComment : ¬ utf8 "--" <:+ u ++ Byte.less :: body :=
    not_suffix_append (List.cons_ne_nil _ _) (Scan.head?_cons_ne (by decide) _) noComment u
  have inside := PassedBack.unmarked unmarked (u ++ [Byte.less]) (Byte.greater :: w) before depth
    (by rw [List.append_assoc]; simp at le ⊢; omega)
  rw [split, width, parentStart_greater notComment]
  simp only [List.append_assoc, List.singleton_append] at inside ⊢
  rw [List.cons_append, inside, List.length_append, List.length_singleton, parentStart_less,
    List.tail_cons, List.append_assoc, List.singleton_append]

theorem turnAt_tag (tag : TagText) (before k : Nat) (w : Bytes) :
    turnAt before k (tag.text.tail ++ w) =
      if k + tag.text.length ≤ before ∧ tag.closesItself = false then .opens (k + tag.text.length)
      else .neither := by
  have read := tag.openTag?_text k w
  have name : tag.text.tail ++ w = tag.name ++ (tag.attributes ++ tagEnding tag.slashed ++ w) := by
    simp [TagText.text, openTagText]
  have notSlash := Scan.head?_tagName tag.isName (tag.attributes ++ tagEnding tag.slashed ++ w)
    (m := Byte.slash) (by decide)
  have notGreater := Scan.head?_tagName tag.isName (tag.attributes ++ tagEnding tag.slashed ++ w)
    (m := Byte.greater) (by decide)
  rw [← name] at notSlash notGreater
  rw [turnAt, if_neg notSlash, if_neg notGreater, read]
  simp only [tag.stop_reading]
  rfl

theorem turnAt_close {name gap : Bytes} (hn : IsTagName name) (hg : AllBlank gap) {before k : Nat}
    (le : k + (closeTagText name gap).length ≤ before) (w : Bytes) :
    turnAt before k ((closeTagText name gap).tail ++ w) = .closes := by
  have split : (closeTagText name gap).tail ++ w =
      Byte.slash :: (name ++ (gap ++ Byte.greater :: w)) := by simp [closeTagText]
  have within : k + 2 + name.length + gap.length + 1 ≤ before := by
    simp only [closeTagText, List.length_cons, List.length_append, List.length_nil] at le
    omega
  rw [split, turnAt, if_pos List.head?_cons, List.drop_one, List.tail_cons,
    Scan.closeTag_text hn.all hg]
  simp only [if_pos within]

theorem find?_backward {text : Bytes} {q : Place → Bool} (hq : ∀ i, q ⟨i, []⟩ = false)
    {start stop : Nat} (lt : start < stop) (here : q (.of text start) = true)
    (later : ∀ j, start < j → j < stop → q (.of text j) = false) :
    (Place.backward text stop).find? q = some (.of text start) := by
  rw [List.find?_eq_findSome?_guard, Place.findSome?_backward (by simp [hq])]
  exact ⟨start, lt, by simp [here], fun j hj hs => by simp [later j hj hs]⟩

/-- The mark that begins a comment does not stand further inside it. -/
theorem mark_not_inside {body : Bytes} (once : ¬ utf8 "<!--" <:+: body ++ utf8 "--") {m : Nat}
    (pos : 0 < m) (le : m < body.length + 3) (w : Bytes) :
    ¬ utf8 "<!--" <+: (utf8 "<!--" ++ ((body ++ utf8 "--") ++ w)).drop m := by
  have width : (utf8 "<!--").length = 4 := rfl
  by_cases inMark : m < 4
  · -- No byte of the mark but the first one is a `<`.
    obtain rfl | rfl | rfl : m = 1 ∨ m = 2 ∨ m = 3 := by omega
    all_goals
      rintro ⟨r, same⟩
      exact absurd (List.cons.inj same).1 (by decide)
  · have within : m - 4 + 4 ≤ (body ++ utf8 "--").length := by
      rw [List.length_append]
      change _ ≤ body.length + 2
      omega
    rw [show m = (utf8 "<!--").length + (m - 4) by omega, List.drop_length_add_append,
      List.drop_append_of_le_length (by omega)]
    intro here
    apply once
    have inside := List.prefix_of_prefix_length_le here (List.prefix_append _ w)
      (by rw [width, List.length_drop]; omega)
    exact inside.isInfix.trans (List.drop_suffix _ _).isInfix

/-- In a comment that holds no second mark of its beginning, also not one that its own end
completes, the mark found going back is the one that begins it. -/
theorem commentStart?_comment {body : Bytes} (once : ¬ utf8 "<!--" <:+: body ++ utf8 "--")
    (u w : Bytes) :
    commentStart? (Place.backward ((u ++ (utf8 "<!--" ++ (body ++ utf8 "--"))) ++ Byte.greater :: w)
      (u ++ (utf8 "<!--" ++ (body ++ utf8 "--"))).length) = some u.length := by
  generalize hv : u ++ (utf8 "<!--" ++ (body ++ utf8 "--")) = v
  obtain ⟨front, ends⟩ : ∃ front, v = (front ++ [Byte.hyphen]) ++ [Byte.hyphen] :=
    ⟨u ++ (utf8 "<!--" ++ body), by rw [← hv]; simp; rfl⟩
  have width : v.length = u.length + (body.length + 6) := by
    rw [← hv, List.length_append, List.length_append, List.length_append]
    change _ + (4 + (_ + 2)) = _
    omega
  have last : standsAt Byte.hyphen (Place.backward (v ++ Byte.greater :: w) v.length) = true := by
    rw [standsAt_backward, ends, List.getLast?_concat]
  have before : standsAt Byte.hyphen
      ((Place.backward (v ++ Byte.greater :: w) v.length).drop 1) = true := by
    rw [ends, List.length_append, List.append_assoc, List.singleton_append, List.length_singleton,
      backward_concat, List.drop_one, List.tail_cons, standsAt_backward, List.getLast?_concat]
  have behind : (Place.backward (v ++ Byte.greater :: w) v.length).drop 3 =
      Place.backward (v ++ Byte.greater :: w) (v.length - 3) := by
    have inside : v.length ≤ (v ++ Byte.greater :: w).length := by simp
    have dropped := Place.drop_backward (Nat.sub_le v.length 3) inside
    rwa [show v.length - (v.length - 3) = 3 by omega] at dropped
  have shorter : u.length < v.length - 3 := by omega
  rw [commentStart?, if_pos ⟨last, before⟩, behind, find?_backward (fun i => rfl) shorter]
  · rfl
  · rw [Place.of, ← hv, List.append_assoc, List.drop_left, List.append_assoc]
    exact List.isPrefixOf_iff_prefix.2 (List.prefix_append _ _)
  · intro j hj hs
    rw [Bool.eq_false_iff, Ne, List.isPrefixOf_iff_prefix, Place.of, ← hv, List.append_assoc,
      show j = u.length + (j - u.length) by omega, List.drop_length_add_append, List.append_assoc]
    exact mark_not_inside once (by omega) (by omega) _

theorem PassedBack.comment {body : Bytes} (once : ¬ utf8 "<!--" <:+: body ++ utf8 "--") :
    PassedBack (commentText body) := by
  intro u w before depth le
  have split : u ++ (commentText body ++ w) =
      (u ++ (utf8 "<!--" ++ (body ++ utf8 "--"))) ++ Byte.greater :: w := by
    simp only [commentText, List.append_assoc]
    rfl
  have width : (u ++ commentText body).length =
      (u ++ (utf8 "<!--" ++ (body ++ utf8 "--"))).length + 1 := by
    simp only [commentText, List.length_append]
    change _ + (4 + _ + 3) = _ + (4 + (_ + 2)) + 1
    omega
  rw [split, width, parentStart_commentEnd (commentStart?_comment once u w)
    (List.prefix_append _ _).length_le]

theorem PassedBack.single {tag : TagText} (tidy : tag.Tidy) (alone : tag.closesItself = true) :
    PassedBack tag.text := by
  intro u w before depth le
  rw [parentStart_angled tidy.angled u w le, turnAt_tag, if_neg (by simp [alone]),
    afterTurn]

theorem parentStart_open {tag : TagText} (tidy : tag.Tidy) (opens : tag.closesItself = false)
    (u w : Bytes) {before : Nat} (le : (u ++ tag.text).length ≤ before) (depth : Nat) :
    parentStart before depth (Place.backward (u ++ (tag.text ++ w)) (u ++ tag.text).length) =
      if depth = 0 then (u ++ tag.text).length
      else parentStart before (depth - 1) (Place.backward (u ++ (tag.text ++ w)) u.length) := by
  rw [parentStart_angled tidy.angled u w le, turnAt_tag,
    if_pos ⟨by rwa [← List.length_append], opens⟩, afterTurn, List.length_append]

theorem parentStart_close {tag : TagText} (tidy : tag.Tidy) {gap : Bytes} (blank : AllBlank gap)
    (u w : Bytes) {before : Nat} (le : (u ++ closeTagText tag.name gap).length ≤ before)
    (depth : Nat) :
    parentStart before depth (Place.backward (u ++ (closeTagText tag.name gap ++ w))
        (u ++ closeTagText tag.name gap).length) =
      parentStart before (depth + 1)
        (Place.backward (u ++ (closeTagText tag.name gap ++ w)) u.length) := by
  rw [parentStart_angled (tidy.angled_close blank) u w le,
    turnAt_close tag.isName blank (by rwa [← List.length_append]), afterTurn]

/-- An element is passed back from its closing tag, which leaves one more opening tag to be found,
to that opening tag. -/
theorem PassedBack.paired {tag : TagText} (tidy : tag.Tidy) (opens : tag.closesItself = false)
    {inner gap : Bytes} (hinner : PassedBack inner) (blank : AllBlank gap) :
    PassedBack (tag.text ++ (inner ++ closeTagText tag.name gap)) := by
  intro u w before depth le
  have shorter : (u ++ tag.text).length ≤ before ∧ (u ++ (tag.text ++ inner)).length ≤ before := by
    simp only [List.length_append] at le ⊢
    omega
  have close := parentStart_close tidy blank (u ++ (tag.text ++ inner)) w
    (by simpa only [List.append_assoc] using le) depth
  have content := hinner (u ++ tag.text) (closeTagText tag.name gap ++ w) before (depth + 1)
    (by simpa only [List.append_assoc] using shorter.2)
  have first := parentStart_open tidy opens u (inner ++ (closeTagText tag.name gap ++ w)) shorter.1
    (depth + 1)
  rw [if_neg (Nat.succ_ne_zero depth), Nat.add_sub_cancel] at first
  simp only [List.append_assoc] at close content first ⊢
  rw [close, content, first]

theorem PassedBack.forest {doc : Forest} (tidy : doc.Tidy) : PassedBack doc.bytes := by
  induction doc with
  | nil => exact .unmarked .nil
  | text body plain rest ih =>
      rw [Forest.bytes_text]
      exact (PassedBack.unmarked tidy.1).append (ih tidy.2)
  | comment body unclosed rest ih =>
      rw [Forest.bytes_comment]
      exact (PassedBack.comment tidy.1).append (ih tidy.2)
  | single tag alone rest ih =>
      rw [Forest.bytes_single]
      exact (PassedBack.single tidy.1 alone).append (ih tidy.2)
  | paired tag opens inner gap blank rest ihinner ih =>
      rw [Forest.bytes_paired]
      exact (PassedBack.paired tidy.1 opens (ihinner tidy.2.1) blank).append (ih tidy.2.2)

/-- The search ends behind the opening tag of the parent, or where the text begins. -/
theorem parentStart_opens {p : Bytes} (opens : Forest.Opens p) (w : Bytes) {before : Nat}
    (le : p.length ≤ before) :
    parentStart before 0 (Place.backward (p ++ w) p.length) = p.length := by
  rcases opens with rfl | ⟨u, tag, rfl, tidy, holds⟩
  · rw [List.length_nil, backward_zero, parentStart]
  · rw [List.append_assoc, parentStart_open tidy holds u w le, if_pos rfl]

theorem goOn_tail {b : Bytes} (ne : b ≠ []) (i : Nat) (w : Bytes) :
    Scan.goOn (i + 1) (i + b.length) (b.tail ++ w) = w := by
  obtain ⟨c, t, rfl⟩ := List.exists_cons_of_ne_nil ne
  have whole := Scan.goOn_append i (c :: t) w
  rwa [List.cons_append, Scan.goOn_cons (by simp)] at whole

theorem text_eq_less (tag : TagText) (w : Bytes) :
    tag.text ++ w = Byte.less :: (tag.text.tail ++ w) := rfl

theorem head?_behind_less (tag : TagText) (w : Bytes) {c : UInt8}
    (hc : Byte.isLetter c = false) : (tag.text.tail ++ w).head? ≠ some c := by
  have name : tag.text.tail ++ w = tag.name ++ (tag.attributes ++ tagEnding tag.slashed ++ w) := by
    simp [TagText.text, openTagText]
  rw [name]
  exact Scan.head?_tagName tag.isName _ hc

/-- The search for the end of the parent passes `b` unchanged, whatever stands behind it. -/
def PassedOn (b : Bytes) : Prop :=
  ∀ i depth w, parentEnd i depth (b ++ w) = parentEnd (i + b.length) depth w

theorem PassedOn.append {b c : Bytes} (hb : PassedOn b) (hc : PassedOn c) : PassedOn (b ++ c) := by
  intro i depth w
  rw [List.append_assoc, hb, hc, List.length_append, Nat.add_assoc]

theorem PassedOn.unmarked {b : Bytes} (h : Unmarked b) : PassedOn b := by
  induction b with
  | nil => exact fun i depth w => rfl
  | cons c t ih =>
      obtain ⟨first, later⟩ := List.forall_mem_cons.1 h
      simp only [isMark, Bool.or_eq_false_iff, beq_eq_false_iff_ne] at first
      obtain ⟨⟨⟨less, -⟩, brace⟩, -⟩ := first
      intro i depth w
      rw [List.cons_append, parentEnd, if_neg brace, if_neg less, ih later, List.length_cons]
      congr 1
      omega

theorem PassedOn.comment {body : Bytes} (unclosed : ¬ utf8 "-->" <:+: body) :
    PassedOn (commentText body) := by
  intro i depth w
  have behind := goOn_tail (b := commentText body) (List.cons_ne_nil _ _) i w
  have tail : (commentText body).tail ++ w =
      Byte.bang :: (utf8 "--" ++ (body ++ (utf8 "-->" ++ w))) :=
    (List.cons.inj (Scan.commentText_append body w)).2
  rw [tail] at behind
  rw [Scan.commentText_append, parentEnd, if_neg (by decide), if_pos rfl,
    if_neg (Scan.head?_cons_ne (by decide) _), if_pos List.head?_cons, List.drop_one,
    List.tail_cons, Scan.declarationEnd_commentText unclosed]
  simp only [behind]

theorem parentEnd_tag (tag : TagText) (i depth : Nat) (w : Bytes) :
    parentEnd i depth (tag.text ++ w) =
      parentEnd (i + tag.text.length) (if tag.closesItself then depth else depth + 1) w := by
  have behind := goOn_tail (b := tag.text) (List.cons_ne_nil _ _) i w
  rw [text_eq_less, parentEnd, if_neg (by decide), if_pos rfl,
    if_neg (head?_behind_less tag w (by decide)), if_neg (head?_behind_less tag w (by decide)),
    if_neg (head?_behind_less tag w (by decide)), tag.openTag?_text]
  simp only [tag.stop_reading, behind]
  rfl

theorem parentEnd_close {name gap : Bytes} (hn : IsTagName name) (hg : AllBlank gap) (i depth : Nat)
    (w : Bytes) :
    parentEnd i depth (closeTagText name gap ++ w) =
      if depth = 0 then i
      else parentEnd (i + (closeTagText name gap).length) (depth - 1) w := by
  have behind := goOn_tail (b := closeTagText name gap) (List.cons_ne_nil _ _) i w
  have tail : (closeTagText name gap).tail ++ w =
      Byte.slash :: (name ++ (gap ++ Byte.greater :: w)) := by simp [closeTagText]
  have stop : i + 2 + name.length + gap.length + 1 = i + (closeTagText name gap).length := by
    simp only [closeTagText, List.length_cons, List.length_append, List.length_nil]
    omega
  have split : closeTagText name gap ++ w = Byte.less :: ((closeTagText name gap).tail ++ w) := rfl
  rw [tail] at behind split
  rw [split, parentEnd, if_neg (by decide), if_pos rfl, if_pos List.head?_cons, List.drop_one,
    List.tail_cons, Scan.closeTag_text hn.all hg]
  simp only [stop, behind]

theorem PassedOn.paired {tag : TagText} (opens : tag.closesItself = false) {inner gap : Bytes}
    (hinner : PassedOn inner) (blank : AllBlank gap) :
    PassedOn (tag.text ++ (inner ++ closeTagText tag.name gap)) := by
  intro i depth w
  rw [List.append_assoc, List.append_assoc, parentEnd_tag, opens, hinner,
    parentEnd_close tag.isName blank]
  simp only [Bool.false_eq_true, if_false, Nat.succ_ne_zero, Nat.add_sub_cancel,
    List.length_append, Nat.add_assoc]

theorem PassedOn.forest (doc : Forest) (tidy : doc.Tidy) : PassedOn doc.bytes := by
  induction doc with
  | nil => exact fun i depth w => rfl
  | text body plain rest ih =>
      rw [Forest.bytes_text]
      exact (PassedOn.unmarked tidy.1).append (ih tidy.2)
  | comment body unclosed rest ih =>
      rw [Forest.bytes_comment]
      exact (PassedOn.comment unclosed).append (ih tidy.2)
  | single tag alone rest ih =>
      rw [Forest.bytes_single]
      refine PassedOn.append (fun i depth w => ?_) (ih tidy.2)
      rw [parentEnd_tag, if_pos alone]
  | paired tag opens inner gap blank rest ihinner ih =>
      rw [Forest.bytes_paired]
      exact (PassedOn.paired opens (ihinner tidy.2.1) blank).append (ih tidy.2.2)

/-- The search ends before the closing tag of the parent, or where the text ends. -/
theorem parentEnd_closes {s : Bytes} (closes : Forest.Closes s) (i : Nat) :
    parentEnd i 0 s = i := by
  rcases closes with rfl | ⟨name, gap, v, rfl, hn, hg⟩
  · rw [parentEnd]
  · rw [parentEnd_close hn hg, if_pos rfl]

/-- What a walk over a level lists for an element of it. -/
def markedRoot (x : Nat × TagText) : Option Marked := x.2.id?.map (⟨x.1, ·⟩)

theorem elementStop_text (e : ElementText) (i : Nat) (w : Bytes) :
    elementStop (e.tag.reading i) (i + 1) (e.tag.text.tail ++ (e.tail ++ w)) =
      i + e.text.length := by
  have behind := goOn_tail (b := e.tag.text) (List.cons_ne_nil _ _) i (e.tail ++ w)
  have same : (e.tag.reading i).closesItself = e.tag.closesItself := rfl
  rw [elementStop, same, e.tag.stop_reading, behind, ElementText.text, ElementText.tail]
  cases alone : e.tag.closesItself with
  | true => simp
  | false =>
      have name : (e.tag.reading i).name = e.tag.name := rfl
      simp only [Bool.false_eq_true, if_false, List.append_assoc]
      rw [name, Scan.passes_markup e.isContent,
        Scan.contentEnd_closeTagText e.tag.isName.all e.blank, if_pos ⟨rfl, rfl⟩,
        Option.getD_some]
      simp only [List.length_append, Nat.add_assoc]

theorem marked_tag {tag : TagText} (tidy : tag.Tidy) (i : Nat) (s : Bytes) :
    marked (tag.text ++ s) (tag.reading i) = (markedRoot (i, tag)).toList := by
  have start : (tag.reading i).start = i := rfl
  rw [marked, tidy.idIn?_eq, markedRoot, start]
  cases tag.id? with
  | none => rfl
  | some id => rfl

/-- The walk over an element lists it, if it has a marker, and goes on behind it. -/
theorem children_element {e : ElementText} (tidy : e.tag.Tidy) (target : Nat) {stop i : Nat}
    (within : i < stop) (w : Bytes) :
    children target stop i (e.text ++ w) =
      (markedRoot (i, e.tag)).toList ++ children target stop (i + e.text.length) w := by
  have split : e.text ++ w = e.tag.text ++ (e.tail ++ w) := by
    rw [ElementText.text, List.append_assoc]
  have first : step target i (e.text ++ w) =
      some ((markedRoot (i, e.tag)).toList, i + e.text.length) := by
    rw [split, text_eq_less, step, if_neg (by decide), if_pos rfl,
      if_neg (head?_behind_less e.tag _ (by decide)),
      if_neg (head?_behind_less e.tag _ (by decide)), e.tag.openTag?_text, ← text_eq_less]
    simp only [elementStop_text, marked_tag tidy]
  rw [children_step, if_neg (Nat.not_le_of_lt within), first]
  dsimp only
  rw [Nat.add_sub_cancel_left, List.drop_left]

theorem children_text {b : Bytes} (h : Unmarked b) {target stop i : Nat}
    (within : i + b.length ≤ stop) (w : Bytes) :
    children target stop i (b ++ w) = children target stop (i + b.length) w := by
  induction b generalizing i with
  | nil => rfl
  | cons c t ih =>
      obtain ⟨first, later⟩ := List.forall_mem_cons.1 h
      simp only [isMark, Bool.or_eq_false_iff, beq_eq_false_iff_ne] at first
      obtain ⟨⟨⟨less, -⟩, brace⟩, -⟩ := first
      rw [List.length_cons] at within
      rw [List.cons_append, children, if_neg (by omega), if_neg brace, if_neg less,
        ih later (by omega), List.length_cons]
      congr 1
      omega

theorem children_comment {body : Bytes} (unclosed : ¬ utf8 "-->" <:+: body) {target stop i : Nat}
    (within : i < stop) (w : Bytes) :
    children target stop i (commentText body ++ w) =
      children target stop (i + (commentText body).length) w := by
  have first : step target i (commentText body ++ w) =
      some ([], i + (commentText body).length) := by
    rw [Scan.commentText_append, step, if_neg (by decide), if_pos rfl, if_pos List.head?_cons,
      List.drop_one, List.tail_cons, Scan.declarationEnd_commentText unclosed, Option.map_some]
  rw [children_step, if_neg (Nat.not_le_of_lt within), first]
  dsimp only
  rw [Nat.add_sub_cancel_left, List.drop_left]
  rfl

/-- The walk over a forest lists its roots that have a marker. -/
theorem children_forest {doc : Forest} (tidy : doc.Tidy) {target stop i : Nat}
    (within : i + doc.bytes.length ≤ stop) (w : Bytes) :
    children target stop i (doc.bytes ++ w) =
      (doc.roots i).filterMap markedRoot ++ children target stop (i + doc.bytes.length) w := by
  have listed (x : Nat × TagText) (l : List (Nat × TagText)) :
      (x :: l).filterMap markedRoot = (markedRoot x).toList ++ l.filterMap markedRoot := by
    cases h : markedRoot x <;> simp [h]
  induction doc generalizing i with
  | nil => rfl
  | text body plain rest ih =>
      rw [Forest.bytes_text, List.length_append] at within ⊢
      rw [List.append_assoc, children_text tidy.1 (by omega), ih tidy.2 (by omega), Nat.add_assoc]
      rfl
  | comment body unclosed rest ih =>
      have wide : 0 < (commentText body).length := Nat.zero_lt_succ _
      rw [Forest.bytes_comment, List.length_append] at within ⊢
      rw [List.append_assoc, children_comment unclosed (by omega), ih tidy.2 (by omega),
        Nat.add_assoc]
      rfl
  | single tag alone rest ih =>
      have wide : 0 < tag.text.length := Nat.zero_lt_succ _
      rw [Forest.bytes_single, List.length_append] at within ⊢
      have first := children_element (e := .ofTag tag) tidy.1 target
        (show i < stop by omega) (rest.bytes ++ w)
      rw [ElementText.text_ofTag alone] at first
      rw [List.append_assoc, first, ih tidy.2 (by omega), Forest.roots, listed, Nat.add_assoc,
        List.append_assoc]
      rfl
  | paired tag opens inner gap blank rest ihinner ih =>
      have wide : 0 < (Forest.pairedText tag inner gap).length := Nat.zero_lt_succ _
      rw [Forest.bytes_paired, List.length_append] at within ⊢
      have first := children_element (e := .ofForest tag inner gap tidy.2.1.nested.content blank)
        tidy.1 target (show i < stop by omega) (rest.bytes ++ w)
      rw [ElementText.text_ofForest opens] at first
      rw [List.append_assoc, first, ih tidy.2.2 (by omega), Forest.roots, listed, Nat.add_assoc,
        List.append_assoc]
      rfl

/-- The id of an element, if its line is indented like that of the element at offset `k`. -/
def alikeId? (text : Bytes) (k : Nat) (x : Nat × TagText) : Option Bytes :=
  if text.lineIndent x.1 = text.lineIndent k then x.2.id? else none

theorem find?_marked (text : Bytes) (k : Nat) (row : List (Nat × TagText)) :
    ((row.filterMap markedRoot).find? (indented text k)).map (·.id) =
      row.findSome? (alikeId? text k) := by
  induction row with
  | nil => rfl
  | cons x rest ih =>
      rw [List.filterMap_cons, List.findSome?_cons, alikeId?, markedRoot]
      cases named : x.2.id? with
      | none => simpa [named] using ih
      | some id =>
          by_cases same : text.lineIndent x.1 = text.lineIndent k
          · simp [indented, same]
          · simpa [indented, same] using ih

theorem less_not_mem_lead {tag : TagText} (tidy : tag.Tidy) {id : Bytes}
    (place : MarkerPlace tag id) : Byte.less ∉ place.lead := by
  obtain ⟨body, split, unmarked, -⟩ := tidy.angled
  rw [place.text_eq] at split
  intro mem
  have inside : Byte.less ∈ body ++ [Byte.greater] := by
    rw [← (List.cons.inj split).2]
    exact List.mem_append_left _ mem
  rcases List.mem_append.1 inside with inside | inside
  · exact absurd (unmarked _ inside) (by decide)
  · exact absurd (List.mem_singleton.1 inside) (by decide)

/-- An element of a tidy document whose marker stands there once is located as it is written. -/
theorem locate?_root {e : ElementText} (tidy : e.tag.Tidy) {id : Bytes}
    (named : e.tag.id? = some id) {p s : Bytes}
    (once : Bytes.times (Marker.ofId id) (p ++ (e.text ++ s)) = 1) :
    locate? (p ++ (e.text ++ s)) id = some (e.locatedAt p.length) := by
  rcases tidy.id?_cases with ⟨none, -⟩ | ⟨id', some, -, place, -⟩
  · rw [none] at named
    cases named
  · obtain rfl : id' = id := Option.some.inj (some.symm.trans named)
    exact (found_in_context place (less_not_mem_lead tidy place) once).2

/-- The walk for an element of a level lists the elements of the level that have a marker. -/
theorem walk_level {text p s : Bytes} {i : Nat} {level : Forest}
    (between : Forest.Between text i level p s) {front back : Forest} {e : ElementText}
    (split : level.bytes = front.bytes ++ (e.text ++ back.bytes)) (hfront : front.Tidy)
    (hback : back.Tidy) :
    walk text (e.locatedAt (i + front.bytes.length)) =
      (level.roots i).filterMap markedRoot := by
  obtain ⟨whole, rfl, tidy, opens, closes⟩ := between
  have start : (e.locatedAt (p.length + front.bytes.length)).start = (p ++ front.bytes).length :=
    List.length_append.symm
  have stop : (e.locatedAt (p.length + front.bytes.length)).stop =
      (p ++ (front.bytes ++ e.text)).length := by
    rw [List.length_append, List.length_append, ← Nat.add_assoc]
    rfl
  have here : text = p ++ (front.bytes ++ (e.text ++ (back.bytes ++ s))) := by
    rw [whole, split, List.append_assoc, List.append_assoc]
  have back' := PassedBack.forest hfront p (e.text ++ (back.bytes ++ s)) _ 0 (Nat.le_refl _)
  have first := parentStart_opens opens (front.bytes ++ (e.text ++ (back.bytes ++ s)))
    (List.prefix_append p front.bytes).length_le
  have behind : text.drop (p ++ (front.bytes ++ e.text)).length = back.bytes ++ s := by
    rw [here, show p ++ (front.bytes ++ (e.text ++ (back.bytes ++ s))) =
      (p ++ (front.bytes ++ e.text)) ++ (back.bytes ++ s) by simp only [List.append_assoc],
      List.drop_left]
  have last : parentEnd (p ++ (front.bytes ++ e.text)).length 0 (back.bytes ++ s) =
      p.length + level.bytes.length := by
    rw [PassedOn.forest back hback, parentEnd_closes closes, split]
    simp only [List.length_append]
    omega
  have le : (p ++ (front.bytes ++ e.text)).length ≤ p.length + level.bytes.length := by
    rw [split]
    simp only [List.length_append]
    omega
  have content : text.drop p.length = level.bytes ++ s := by rw [whole, List.drop_left]
  have stopped : children (p ++ front.bytes).length (p.length + level.bytes.length)
      (p.length + level.bytes.length) s = [] := by
    rw [children_step, if_pos (Nat.le_refl _)]
  simp only [walk, start, stop]
  rw [behind, last, Nat.max_eq_left le, here, back', first, ← here, content,
    children_forest tidy (Nat.le_refl _), stopped, List.append_nil]

theorem siblings_of_beside {doc : Forest} (tidy : doc.Tidy) {earlier later : List (Nat × TagText)}
    {k : Nat} {tag : TagText} (beside : doc.Beside earlier (k, tag) later) {id : Bytes}
    (named : tag.id? = some id) (once : Bytes.times (Marker.ofId id) doc.bytes = 1) :
    siblings doc.bytes id = .ok
      ⟨earlier.reverse.findSome? (alikeId? doc.bytes k),
        later.findSome? (alikeId? doc.bytes k)⟩ := by
  obtain ⟨i, level, mem, row⟩ := beside
  obtain ⟨p, s, between⟩ := tidy.level mem
  obtain ⟨front, back, e, split, rfl, hfront, hback, rfl, hers⟩ :=
    between.tidy.root (row ▸ List.mem_append_right _ List.mem_cons_self)
  have here : doc.bytes = (p ++ front.bytes) ++ (e.text ++ (back.bytes ++ s)) := by
    rw [between.split, split]
    simp only [List.append_assoc]
  have located : locate? doc.bytes id = some (e.locatedAt (i + front.bytes.length)) := by
    rw [here] at once ⊢
    rw [locate?_root hers named once, between.offset, List.length_append]
  have walked := walk_level between split hfront hback
  have sorted := sorted_walk doc.bytes (e.locatedAt (i + front.bytes.length))
  have isMarked : markedRoot (i + front.bytes.length, e.tag) =
      some ⟨i + front.bytes.length, id⟩ := by
    rw [markedRoot, named]
    rfl
  have start : (e.locatedAt (i + front.bytes.length)).start = i + front.bytes.length := rfl
  rw [row, List.filterMap_append, List.filterMap_cons, isMarked] at walked
  dsimp only at walked
  rw [walked, List.pairwise_append] at sorted
  have before : ∀ z ∈ earlier.filterMap markedRoot, z.start < i + front.bytes.length :=
    fun z hz => sorted.2.2 z hz _ List.mem_cons_self
  rw [siblings, located]
  dsimp only
  rw [ofLocation_eq, walked, start, around_split (m := ⟨_, id⟩) before, ← List.filterMap_reverse,
    find?_marked, find?_marked]

/-- In a tidy document every element has its place among the children of one parent, and the
neighbours found for its id are the nearest elements before and behind it among them that have a
marker and whose lines are indented like its own. -/
theorem siblings_eq_tree {doc : Forest} (tidy : doc.Tidy) {k : Nat} {tag : TagText}
    (stands : doc.Stands k (.opening tag)) {id : Bytes} (named : tag.id? = some id)
    (once : Bytes.times (Marker.ofId id) doc.bytes = 1) :
    (∃ earlier later, doc.Beside earlier (k, tag) later) ∧
      ∀ earlier later, doc.Beside earlier (k, tag) later →
        siblings doc.bytes id = .ok
          ⟨earlier.reverse.findSome? (alikeId? doc.bytes k),
            later.findSome? (alikeId? doc.bytes k)⟩ :=
  ⟨stands.beside, fun _ _ beside => siblings_of_beside tidy beside named once⟩

theorem markedTag_isName : IsTagName (utf8 "p") := by decide

def markedTag (id : Bytes) (hid : QuotedText Byte.doubleQuote id) : TagText :=
  .ofId (utf8 "p") id markedTag_isName hid

theorem markedTag_tidy {id : Bytes} (hid : QuotedText Byte.doubleQuote id) (unmarked : Unmarked id)
    (noQuote : Byte.doubleQuote ∉ id) : (markedTag id hid).Tidy where
  name := show ¬ utf8 "--" <:+ utf8 "p" by decide
  quoted x hx := by
    obtain rfl := List.mem_singleton.1 hx
    exact ⟨_, id, rfl, by decide, unmarked, noQuote⟩

theorem quotedId_a : QuotedText Byte.doubleQuote (utf8 "a") := .ofBytes (by decide)

theorem quotedId_b : QuotedText Byte.doubleQuote (utf8 "b") := .ofBytes (by decide)

def tagA : TagText := markedTag (utf8 "a") quotedId_a

def tagB : TagText := markedTag (utf8 "b") quotedId_b

theorem tagA_tidy : tagA.Tidy := markedTag_tidy _ (by decide) (by decide)

theorem tagB_tidy : tagB.Tidy := markedTag_tidy _ (by decide) (by decide)

def bareTag (name : Bytes) (isName : IsTagName name) : TagText where
  name := name
  items := []
  gap := []
  slashed := false
  isName := isName
  valid := nofun
  blank := .nil

/-- What the element `<main>` holds: a marked paragraph, a comment with markup in it, a void
element and, on a line of its own, another marked paragraph. -/
def mainContent : Forest :=
  .text (utf8 "\n  ") (by decide) (.paired tagA rfl (.text (utf8 "A") (by decide) .nil) [] .nil
    (.comment (utf8 " <p> ") (by decide)
      (.single (bareTag (utf8 "br") (by decide)) (by decide) (.text (utf8 "\n  ") (by decide)
        (.paired tagB rfl (.text (utf8 "B") (by decide) .nil) [] .nil
          (.text (utf8 "\n") (by decide) .nil))))))

def mainDoc : Forest :=
  .paired (bareTag (utf8 "main") (by decide)) (by decide) mainContent [] .nil .nil

theorem mainDoc_tidy : mainDoc.Tidy := by
  refine ⟨⟨by decide +kernel, nofun⟩, ?_, trivial⟩
  refine ⟨by decide, tagA_tidy, ⟨by decide, trivial⟩, by decide +kernel, ?_⟩
  exact ⟨⟨by decide +kernel, nofun⟩, by decide, tagB_tidy, ⟨by decide, trivial⟩, by decide,
    trivial⟩

theorem mainDoc_tree :
    mainDoc.Tidy ∧ mainDoc.Stands 49 (.opening tagB) ∧ tagB.id? = some (utf8 "b") ∧
      Bytes.times (Marker.ofId (utf8 "b")) mainDoc.bytes = 1 ∧
        siblings mainDoc.bytes (utf8 "b") = .ok ⟨some (utf8 "a"), none⟩ := by
  have stands : mainDoc.Stands 49 (.opening tagB) :=
    List.mem_of_getElem? (i := 8) rfl
  have named : tagB.id? = some (utf8 "b") := by decide +kernel
  have once : Bytes.times (Marker.ofId (utf8 "b")) mainDoc.bytes = 1 := by decide +kernel
  have beside : mainDoc.Beside [(9, tagA), (42, bareTag (utf8 "br") (by decide))] (49, tagB) [] :=
    ⟨6, mainContent, List.mem_cons_of_mem _ List.mem_cons_self, rfl⟩
  have tree := (siblings_eq_tree mainDoc_tidy stands named once).2 _ _ beside
  have nearest : [(9, tagA), (42, bareTag (utf8 "br") (by decide))].reverse.findSome?
      (alikeId? mainDoc.bytes 49) = some (utf8 "a") := by decide +kernel
  rw [nearest] at tree
  exact ⟨mainDoc_tidy, stands, named, once, tree⟩

/-- The document `<p data-eid="a">A</p>`, a line with the comment `<!--<b><!-->`, and a line with
`<p data-eid="b">B</p>`. -/
def hiddenDoc : Forest :=
  .paired tagA rfl (.text (utf8 "A") (by decide) .nil) [] .nil
    (.text (utf8 "\n") (by decide) (.comment (utf8 "<b><!") (by decide)
      (.text (utf8 "\n") (by decide)
        (.paired tagB rfl (.text (utf8 "B") (by decide) .nil) [] .nil .nil))))

/-- The content of the comment holds neither mark, but its end completes the first one, and the
tag in front of that is taken for the parent. -/
theorem hiddenDoc_sibling_missed :
    ¬ utf8 "<!--" <:+: utf8 "<b><!" ∧ ¬ utf8 "-->" <:+: utf8 "<b><!" ∧ tagA.Tidy ∧ tagB.Tidy ∧
      Bytes.times (Marker.ofId (utf8 "a")) hiddenDoc.bytes = 1 ∧
      Bytes.times (Marker.ofId (utf8 "b")) hiddenDoc.bytes = 1 ∧
      hiddenDoc.Beside [(0, tagA)] (35, tagB) [] ∧
      [(0, tagA)].reverse.findSome? (alikeId? hiddenDoc.bytes 35) = some (utf8 "a") ∧
      siblings hiddenDoc.bytes (utf8 "b") = .ok ⟨none, none⟩ := by
  have beside : hiddenDoc.Beside [(0, tagA)] (35, tagB) [] :=
    ⟨0, hiddenDoc, List.mem_cons_self, rfl⟩
  refine ⟨by decide, by decide, tagA_tidy, tagB_tidy, by decide +kernel, by decide +kernel, beside,
    by decide +kernel, by decide +kernel⟩

end MarkupEdit.Siblings
