import MarkupEdit.Proofs.Balance
import MarkupEdit.Proofs.Seams

/-!
What the beginning of a text decides of a unit that is read from it. A `<` in a block stands for
itself while no whole element starts there, and becomes the start of one when more text follows, so
the answer of a reader on a text alone told little about longer texts. Yet of each unit one of
three things is certain: it has ended, whatever follows; some text that follows ends it; or it
never ends.
-/

namespace MarkupEdit.Scan

/-- How the answers of a reader at different offsets belong together: `say a n` states that `a i`
is the answer at offset `i` about one unit of `n` bytes. -/
structure Answers (α : Type) where
  say : (Nat → α) → Nat → Prop
  shift : ∀ {a : Nat → α} {n : Nat} (k : Nat), say a n → say (fun i => a (i + k)) (k + n)

namespace Answers

/-- The offset just past the unit. -/
def offset : Answers Nat where
  say a n := ∀ i, a i = i + n
  shift k h i := by
    have same := h (i + k)
    dsimp only
    omega

/-- The offset of the end of a tag, and whether it is `/>`. -/
def body : Answers (Nat × Bool) where
  say a n := ∃ m slashed, (∀ i, a i = (i + m, slashed)) ∧ n = m + if slashed then 2 else 1
  shift k h := by
    obtain ⟨m, slashed, same, rfl⟩ := h
    exact ⟨k + m, slashed, fun i => by simp only [same, Nat.add_assoc], by omega⟩

def tag : Answers OpenTag where
  say a n := ∃ start name m slashed, (∀ i, a i = ⟨i + start, name, i + m, slashed⟩) ∧
    n = m + if slashed then 2 else 1
  shift k h := by
    obtain ⟨start, name, m, slashed, same, rfl⟩ := h
    exact ⟨k + start, name, k + m, slashed,
      fun i => by simp only [same, Nat.add_assoc], by omega⟩

end Answers

/-- What the text `t` decides of the unit that a reader reads from it, when `lead` bytes of the
unit stand in front of `t`. -/
inductive Outlook {α : Type} (answers : Answers α) (read : Nat → Bytes → Option α) (lead : Nat)
    (t : Bytes) : Prop where
  | ended (a : Nat → α) (n : Nat) (unit : answers.say a n)
      (h : ∀ i s, read i (t ++ s) = some (a i))
  | endable (a : Nat → α) (s : Bytes) (ne : s ≠ [])
      (unit : answers.say a (lead + t.length + s.length))
      (h : ∀ i r, read i (t ++ (s ++ r)) = some (a i))
  | never (h : ∀ i s, read i (t ++ s) = none)

/-- Some text is a whole unit, whatever follows. -/
def Closable {α : Type} (answers : Answers α) (read : Nat → Bytes → Option α) : Prop :=
  ∃ a s, s ≠ [] ∧ answers.say a s.length ∧ ∀ i r, read i (s ++ r) = some (a i)

section

variable {α : Type} {answers : Answers α} {read other : Nat → Bytes → Option α} {lead : Nat}
  {t u : Bytes}

/-- A reader that goes on as another one has the outlook of that one. -/
theorem Outlook.onward (later : Outlook answers other 0 u) {k : Nat}
    (step : ∀ i s, read i (t ++ s) = other (i + k) (u ++ s))
    (width : lead + t.length = k + u.length) : Outlook answers read lead t := by
  cases later with
  | ended a n unit h => exact .ended _ _ (answers.shift k unit) fun i s => by rw [step, h]
  | endable a s ne unit h =>
      have unit' := answers.shift k unit
      rw [Nat.zero_add, ← Nat.add_assoc, ← width] at unit'
      exact .endable _ s ne unit' fun i r => by rw [step, h]
  | never h => exact .never fun i s => by rw [step, h]

/-- A reader that some text takes to where another one starts can be ended as that one can. -/
theorem Closable.behind (closable : Closable answers other) {s : Bytes}
    (step : ∀ i r, read i (t ++ (s ++ r)) = other (i + (lead + t.length + s.length)) r) :
    Outlook answers read lead t := by
  obtain ⟨a, closing, ne, unit, h⟩ := closable
  have unit' := answers.shift (lead + t.length + s.length) unit
  refine .endable (fun i => a (i + (lead + t.length + s.length))) (s ++ closing) (by simp [ne]) ?_
    fun i r => ?_
  · rwa [List.length_append, ← Nat.add_assoc]
  · rw [List.append_assoc, step, h]

theorem goOn_within {n : Nat} (within : n ≤ t.length) (i : Nat) (s : Bytes) :
    goOn i (i + n) (t ++ s) = t.drop n ++ s := by
  rw [goOn, Nat.add_sub_cancel_left, List.drop_append_of_le_length within]

theorem goOn_behind (i : Nat) (t s r : Bytes) :
    goOn i (i + (t.length + s.length)) (t ++ (s ++ r)) = r := by
  rw [← List.append_assoc, ← List.length_append, goOn_append]

/-- A reader that first reads a unit and then goes on behind it. -/
theorem Outlook.through (front : Bytes) {unit : Nat → Bytes → Option Nat}
    (step : ∀ i s, read i (front ++ s) =
      (unit (i + front.length) s).bind fun j => other j (goOn (i + front.length) j s))
    (bounds : ∀ {i s j}, unit i s = some j → j ≤ i + s.length)
    (first : Outlook .offset unit 0 t) (rest : ∀ n, Outlook answers other 0 (t.drop n))
    (closable : Closable answers other) : Outlook answers read 0 (front ++ t) := by
  cases first with
  | ended a n told h =>
      have within : n ≤ t.length := by
        have bound := bounds (h 0 [])
        rw [told, List.append_nil] at bound
        omega
      refine (rest n).onward (k := front.length + n) (fun i s => ?_) ?_
      · rw [List.append_assoc, step, h, told, Option.bind_some, goOn_within within, Nat.add_assoc]
      · rw [List.length_append, List.length_drop]
        omega
  | endable a s ne told h =>
      refine closable.behind (s := s) fun i r => ?_
      rw [List.append_assoc, step, h, told, Option.bind_some, Nat.zero_add, goOn_behind,
        List.length_append]
      congr 1
      omega
  | never h => exact .never fun i s => by rw [List.append_assoc, step, h, Option.bind_none]

/-- A reader that tries to read a unit behind the byte `c`, goes on behind the unit in a way that
the unit decides, and takes the byte for itself where there is no unit. -/
theorem Outlook.attempt {β : Type} {parts : Answers β} {unit : Nat → Bytes → Option β}
    {stop : β → Nat} {next : β → Nat → Bytes → Option α} (c : UInt8)
    (step : ∀ i s, read i (c :: (t ++ s)) = (unit i (t ++ s)).elim (other (i + 1) (t ++ s))
      fun b => next b (stop b) (goOn (i + 1) (stop b) (t ++ s)))
    (bounds : ∀ {i s b}, unit i s = some b → i + 1 < stop b ∧ stop b ≤ i + 1 + s.length)
    (first : Outlook parts unit 1 t)
    (fixed : ∀ a n, parts.say a n → ∃ later, ∀ i, stop (a i) = i + n ∧ next (a i) = later)
    (rest : ∀ b n, Outlook answers (next b) 0 (t.drop n))
    (closable : ∀ b, Closable answers (next b)) (otherwise : Outlook answers other 0 t) :
    Outlook answers read 0 (c :: t) := by
  cases first with
  | ended a n told h =>
      obtain ⟨later, same⟩ := fixed a n told
      have bound := bounds (h 0 [])
      rw [(same 0).1, List.append_nil] at bound
      have within : n - 1 ≤ t.length := by omega
      refine (rest (a 0) (n - 1)).onward (k := n) (fun i s => ?_) ?_
      · have place : i + n = i + 1 + (n - 1) := by omega
        rw [List.cons_append, step, h, Option.elim_some, (same i).1, (same i).2, ← (same 0).2,
          place, goOn_within within]
      · rw [List.length_cons, List.length_drop]
        omega
  | endable a s ne told h =>
      obtain ⟨later, same⟩ := fixed a _ told
      refine (closable (a 0)).behind (s := s) fun i r => ?_
      have place : i + (1 + t.length + s.length) = i + 1 + (t.length + s.length) := by omega
      rw [List.cons_append, step, h, Option.elim_some, (same i).1, (same i).2, ← (same 0).2, place,
        goOn_behind, List.length_cons]
      congr 1
      omega
  | never h =>
      refine otherwise.onward (k := 1) (fun i s => ?_) (by rw [List.length_cons]; omega)
      rw [List.cons_append, step, h, Option.elim_none]

end

/-- The text of a literal ends in the text, or some text completes it. -/
theorem quoted_cases (quote : UInt8) (t : Bytes) :
    (∃ u v, QuotedText quote u ∧ t = u ++ quote :: v) ∨ ∃ s, QuotedText quote (t ++ s) := by
  fun_induction quotedEnd quote 0 t with
  | case1 => exact .inr ⟨[], .nil⟩
  | case2 => exact .inr ⟨[quote], .escape quote .nil⟩
  | case3 i d u ih =>
      cases ih with
      | inl closed =>
          obtain ⟨v, w, text, rfl⟩ := closed
          exact .inl ⟨Byte.backslash :: d :: v, w, .escape d text, rfl⟩
      | inr open' =>
          obtain ⟨s, text⟩ := open'
          exact .inr ⟨s, .escape d text⟩
  | case4 i t notEscape => exact .inl ⟨[], t, .nil, rfl⟩
  | case5 i c t notEscape notQuote ih =>
      cases ih with
      | inl closed =>
          obtain ⟨u, v, text, rfl⟩ := closed
          exact .inl ⟨c :: u, v, .byte notEscape notQuote text, rfl⟩
      | inr open' =>
          obtain ⟨s, text⟩ := open'
          exact .inr ⟨s, .byte notEscape notQuote text⟩

theorem outlook_quoted {quote : UInt8} (isQuote : Byte.isQuote quote = true) (t : Bytes) :
    Outlook .offset (quotedEnd quote) 0 t := by
  cases quoted_cases quote t with
  | inl closed =>
      obtain ⟨u, v, text, rfl⟩ := closed
      refine .ended (· + (u.length + 1)) _ (fun i => rfl) fun i s => ?_
      rw [List.append_assoc, List.cons_append, quotedEnd_text isQuote text]
  | inr open' =>
      obtain ⟨s, text⟩ := open'
      refine .endable (· + (t.length + s.length + 1)) (s ++ [quote]) (by simp) (fun i => ?_)
        fun i r => ?_
      · simp only [List.length_append, List.length_singleton]
        omega
      · have ended := quotedEnd_text isQuote text i r
        rw [List.length_append] at ended
        simpa using ended

/-- The longest run at the front of a text. -/
theorem exists_run (p : UInt8 → Bool) (u : Bytes) :
    ∃ v w, u = v ++ w ∧ (∀ c ∈ v, p c = true) ∧ ∀ c, w.head? = some c → p c = false := by
  refine ⟨u.takeWhile p, u.dropWhile p, List.takeWhile_append_dropWhile.symm,
    List.all_eq_true.1 List.all_takeWhile, fun c first => ?_⟩
  have stopped := List.head?_dropWhile_not p u
  rw [first] at stopped
  exact stopped

/-- The first place of a mark splits a text. -/
theorem split_infix {mark : Bytes} (ne : mark ≠ []) {t : Bytes} (stands : mark <:+: t) :
    ∃ k v, t = k ++ (mark ++ v) ∧ ¬ mark <:+: k := by
  induction t with
  | nil => exact absurd (List.infix_nil.1 stands) ne
  | cons c t ih =>
      by_cases here : mark <+: c :: t
      · obtain ⟨v, split⟩ := here
        exact ⟨[], v, split.symm, fun h => ne (List.infix_nil.1 h)⟩
      · have later : mark <:+: t := (List.infix_cons_iff.1 stands).resolve_left here
        obtain ⟨k, v, rfl, none'⟩ := ih later
        refine ⟨c :: k, v, rfl, fun h => ?_⟩
        cases List.infix_cons_iff.1 h with
        | inl front => exact here (front.trans (by simp))
        | inr inner => exact none' inner

theorem indexFrom?_byte {c : UInt8} {k : Bytes} (free : c ∉ k) (i : Nat) (rest : Bytes) :
    Bytes.indexFrom? [c] i (k ++ c :: rest) = some (i + k.length) := by
  induction k generalizing i with
  | nil => simp [Bytes.indexFrom?]
  | cons d k ih =>
      have apart : c ≠ d := fun h => free (h ▸ List.mem_cons_self)
      rw [List.cons_append, Bytes.indexFrom?, if_neg (by simp [apart]),
        ih fun h => free (List.mem_cons_of_mem d h)]
      simp only [List.length_cons, Option.some.injEq]
      omega

theorem declarationEnd_comment {k : Bytes} (free : ¬ utf8 "-->" <:+: k) (i : Nat)
    (rest : Bytes) :
    declarationEnd i (utf8 "--" ++ (k ++ (utf8 "-->" ++ rest))) = some (i + (k.length + 5)) := by
  have tail : (utf8 "--" ++ (k ++ (utf8 "-->" ++ rest))).drop 2 = k ++ (utf8 "-->" ++ rest) := rfl
  rw [declarationEnd, if_pos (List.isPrefixOf_iff_prefix.2 (List.prefix_append _ _)), tail,
    indexFrom?_commentClose free, Option.map_some]
  congr 1
  omega

theorem declarationEnd_mark {k : Bytes} (free : Byte.greater ∉ k) {rest : Bytes}
    (noComment : ¬ utf8 "--" <+: k ++ Byte.greater :: rest) (i : Nat) :
    declarationEnd i (k ++ Byte.greater :: rest) = some (i + (k.length + 1)) := by
  rw [declarationEnd, if_neg (by rwa [List.isPrefixOf_iff_prefix]), indexFrom?_byte free,
    Option.map_some, Nat.add_assoc]

/-- No byte of the mark of a comment is a `>`. -/
theorem front_of_comment {k s : Bytes} (h : utf8 "--" <+: k ++ Byte.greater :: s) :
    utf8 "--" <+: k := by
  have mark : utf8 "--" = [Byte.hyphen, Byte.hyphen] := rfl
  have apart : Byte.hyphen ≠ Byte.greater := by decide
  rw [mark] at h ⊢
  cases k with
  | nil => exact absurd (List.cons_prefix_cons.1 h).1 apart
  | cons c k =>
      cases k with
      | nil => exact absurd (List.cons_prefix_cons.1 (List.cons_prefix_cons.1 h).2).1 apart
      | cons d k =>
          simp only [List.cons_append, List.cons_prefix_cons, List.nil_prefix, and_true] at h ⊢
          exact h

theorem outlook_declaration (t : Bytes) : Outlook .offset declarationEnd 0 t := by
  by_cases comment : utf8 "--" <+: t
  · obtain ⟨u, rfl⟩ := comment
    by_cases closed : utf8 "-->" <:+: u
    · obtain ⟨k, v, rfl, free⟩ := split_infix (by decide) closed
      refine .ended (· + (k.length + 5)) _ (fun i => rfl) fun i s => ?_
      simp only [List.append_assoc]
      exact declarationEnd_comment free i (v ++ s)
    · refine .endable (· + (u.length + 5)) (utf8 "-->") (by decide) (fun i => ?_) fun i r => ?_
      · have widths : (utf8 "--").length = 2 ∧ (utf8 "-->").length = 3 := ⟨rfl, rfl⟩
        simp only [List.length_append, widths]
        omega
      · rw [List.append_assoc]
        exact declarationEnd_comment closed i r
  · by_cases closed : Byte.greater ∈ t
    · obtain ⟨k, v, rfl, free⟩ := List.eq_append_cons_of_mem closed
      refine .ended (· + (k.length + 1)) _ (fun i => rfl) fun i s => ?_
      rw [List.append_assoc, List.cons_append]
      refine declarationEnd_mark free (fun h => comment ?_) i
      exact (front_of_comment h).trans (List.prefix_append _ _)
    · exact .endable (· + (t.length + 1)) [Byte.greater] (by simp) (fun i => by simp) fun i r =>
        declarationEnd_mark closed (fun h => comment (front_of_comment h)) i

/-- What stands behind `</` is a name and white space, and then the `>` of a closing tag, the end of
the text or a byte that shows that this was no tag. -/
theorem closeTag_cases (u : Bytes) :
    ∃ name gap v, u = name ++ (gap ++ v) ∧ (∀ c ∈ name, isNameByte c = true) ∧ AllBlank gap ∧
      (v = [] ∨ (∃ w, v = Byte.greater :: w) ∨ ∀ i s, CloseTag.after? i (u ++ s) = none) := by
  obtain ⟨name, tail, parts, names, apart⟩ := exists_run isNameByte u
  obtain ⟨gap, v, parts', blanks, apart'⟩ := exists_run Byte.isBlank tail
  subst parts parts'
  refine ⟨name, gap, v, rfl, names, blanks, ?_⟩
  cases v with
  | nil => exact .inl rfl
  | cons c w =>
      by_cases greater : c = Byte.greater
      · exact .inr (.inl ⟨w, by rw [greater]⟩)
      · refine .inr (.inr fun i s => ?_)
        have nameRun : (name ++ (gap ++ c :: (w ++ s))).takeWhile isNameByte = name := by
          refine takeWhile_append_stop names fun d first => ?_
          cases gap with
          | nil => exact apart d first
          | cons e gap => exact apart d first
        have gapRun : (gap ++ c :: (w ++ s)).takeWhile Byte.isBlank = gap :=
          takeWhile_append_stop blanks fun d first => apart' d first
        simp only [CloseTag.after?, List.append_assoc, List.cons_append, nameRun, List.drop_left,
          gapRun, if_neg greater]

theorem closable_template : Closable .offset templateEnd :=
  ⟨(· + 1), [Byte.backtick], by simp, fun _ => rfl, templateEnd_backtick⟩

theorem closable_block (depth : Nat) : Closable .offset fun i s => blockEnd i depth s := by
  refine ⟨(· + (depth + 1)), List.replicate (depth + 1) Byte.closeBrace, by simp,
    fun i => by simp, fun i r => ?_⟩
  induction depth generalizing i with
  | zero => exact blockEnd_closed (b := []) (fun _ _ _ => rfl) i r
  | succ depth ih =>
      dsimp only at ih ⊢
      rw [List.replicate_succ, List.cons_append, blockEnd, if_neg (by decide), if_pos rfl,
        if_neg (Nat.succ_ne_zero depth), Nat.add_sub_cancel, ih]
      congr 1
      omega

theorem closable_body : Closable .body bodyEnd? :=
  ⟨fun i => (i, false), [Byte.greater], by simp, ⟨0, false, fun _ => rfl, rfl⟩,
    bodyEnd?_tagEnding false⟩

theorem closable_content {name : Bytes} (hn : ∀ c ∈ name, isNameByte c = true) (depth : Nat) :
    Closable .offset fun i s => contentEnd i name depth s := by
  induction depth with
  | zero =>
      refine ⟨(· + (closeTagText name []).length), closeTagText name [], by simp [closeTagText],
        fun _ => rfl, fun i r => ?_⟩
      dsimp only
      rw [contentEnd_closeTagText hn .nil, if_pos ⟨rfl, rfl⟩]
  | succ depth ih =>
      obtain ⟨a, s, ne, told, h⟩ := ih
      refine ⟨fun i => a (i + (closeTagText name []).length), closeTagText name [] ++ s,
        by simp [ne], ?_, fun i r => ?_⟩
      · rw [List.length_append]
        exact Answers.offset.shift _ told
      · dsimp only at h ⊢
        rw [List.append_assoc, contentEnd_closeTagText hn .nil, if_neg (by simp), if_pos rfl,
          Nat.add_sub_cancel, h]

theorem noName : ∀ c ∈ ([] : Bytes), isNameByte c = true := nofun

theorem openTag?_bare {name : Bytes} (isName : IsTagName name) (i : Nat) (rest : Bytes) :
    openTag? i (name ++ Byte.greater :: rest) = some ⟨i, name, i + 1 + name.length, false⟩ := by
  have passes : PassesBody [] := fun _ _ _ => rfl
  exact openTag?_text isName passes (.nil false) i rest

/-- The name and the kind of a tag do not depend on where it stands. -/
theorem tag_same {a : Nat → OpenTag} {n : Nat} (told : Answers.tag.say a n) :
    ∃ name itself, ∀ i, (a i).name = name ∧ (a i).closesItself = itself ∧ (a i).stop = i + n := by
  obtain ⟨start, name, m, slashed, same, rfl⟩ := told
  refine ⟨name, slashed || isVoidElement name, fun i => ?_⟩
  rw [same, OpenTag.stop, OpenTag.closesItself, ← Nat.add_assoc]
  exact ⟨rfl, rfl, rfl⟩

theorem names_of_openTag {i : Nat} {s : Bytes} {tag : OpenTag} (h : openTag? i s = some tag) :
    ∀ c ∈ tag.name, isNameByte c = true := by
  obtain ⟨c, t, rfl, letter, -, name, -⟩ := openTag?_cases h
  rw [name]
  exact IsTagName.all ⟨letter, List.all_eq_true.1 List.all_takeWhile⟩

/-- What is read from the end of a text can be ended if something can. -/
theorem Closable.outlook {α : Type} {answers : Answers α} {read : Nat → Bytes → Option α}
    (closable : Closable answers read) : Outlook answers read 0 [] := by
  obtain ⟨a, s, ne, told, h⟩ := closable
  exact .endable a s ne (by simpa using told) h

/-- The outlook of every unit that may be read from a text. -/
structure Foreseen (t : Bytes) : Prop where
  template : Outlook .offset templateEnd 0 t
  block (depth : Nat) : Outlook .offset (fun i s => blockEnd i depth s) 0 t
  element : Outlook .offset elementEnd 1 t
  tag : Outlook .tag openTag? 1 t
  body : Outlook .body bodyEnd? 0 t
  content {name : Bytes} (hn : ∀ c ∈ name, isNameByte c = true) (depth : Nat) :
    Outlook .offset (fun i s => contentEnd i name depth s) 0 t

/-- What stands behind `</` in content is decided by the text as far as the `>`. -/
theorem outlook_closeTag (t : Bytes) {name : Bytes} (hn : ∀ c ∈ name, isNameByte c = true)
    (depth : Nat) (behind : ∀ u depth, u.length ≤ t.length + 1 →
      Outlook .offset (fun i s => contentEnd i name depth s) 0 u) :
    Outlook .offset (fun i s => contentEnd i name depth s) 0 (Byte.less :: Byte.slash :: t) := by
  obtain ⟨own, gap, v, rfl, names, blanks, rest⟩ := closeTag_cases t
  have read (i : Nat) (s : Bytes) := contentEnd_closeTagText names blanks i name depth s
  have text (s : Bytes) : closeTagText own gap ++ s =
      Byte.less :: Byte.slash :: (own ++ (gap ++ Byte.greater :: s)) := by
    simp [closeTagText]
  have width : (closeTagText own gap).length = own.length + gap.length + 3 := by
    simp [closeTagText]
    omega
  obtain rfl | ⟨w, rfl⟩ | none' := rest
  · by_cases closing : own = name ∧ depth = 0
    · refine .endable (· + (closeTagText own gap).length) [Byte.greater] (by simp) (fun i => ?_)
        fun i r => ?_
      · simp only [width, List.length_cons, List.length_append, List.length_nil]
        omega
      · have ended := read i r
        rw [if_pos closing, text] at ended
        simpa using ended
    · refine (closable_content hn (if own = name then depth - 1 else depth)).behind
        (s := [Byte.greater]) fun i r => ?_
      have later := read i r
      rw [if_neg closing, text, width] at later
      have place : i + (0 + (Byte.less :: Byte.slash :: (own ++ (gap ++ []))).length +
          [Byte.greater].length) = i + (own.length + gap.length + 3) := by
        simp only [List.length_cons, List.length_append, List.length_nil]
        omega
      rw [place, ← later]
      simp
  · by_cases closing : own = name ∧ depth = 0
    · refine .ended (· + (closeTagText own gap).length) _ (fun i => rfl) fun i s => ?_
      have ended := read i (w ++ s)
      rw [if_pos closing, text] at ended
      simpa using ended
    · refine (behind w (if own = name then depth - 1 else depth) (by simp; omega)).onward
        (k := (closeTagText own gap).length) (fun i s => ?_) (by simp [width]; omega)
      have later := read i (w ++ s)
      rw [if_neg closing, text] at later
      rw [← later]
      simp
  · refine (behind (Byte.slash :: (own ++ (gap ++ v))) depth (by simp)).onward (k := 1)
      (fun i s => ?_) (by simp only [List.length_cons]; omega)
    rw [List.cons_append, List.cons_append, contentEnd, if_neg (by decide), if_pos rfl,
      if_pos List.head?_cons, List.drop_one, List.tail_cons, none']

section

variable {c : UInt8} {t : Bytes} (shorter : ∀ u, u.length ≤ t.length → Foreseen u)

theorem length_drop_le (t : Bytes) (n : Nat) : (t.drop n).length ≤ t.length := by
  rw [List.length_drop]
  omega

include shorter

theorem outlook_template (c : UInt8) : Outlook .offset templateEnd 0 (c :: t) := by
  by_cases escape : c = Byte.backslash
  · subst escape
    cases t with
    | nil =>
        exact closable_template.behind (s := [Byte.backslash]) fun i r => templateEnd_escape _ i r
    | cons d t =>
        exact (shorter t (by simp)).template.onward (k := 2)
          (fun i s => templateEnd_escape d i (t ++ s)) (by simp only [List.length_cons]; omega)
  by_cases close : c = Byte.backtick
  · subst close
    exact .ended (· + 1) 1 (fun _ => rfl) fun i s => templateEnd_backtick i (t ++ s)
  cases t with
  | nil =>
      -- A brace behind a last `$` would open a block.
      refine .endable (· + 2) [Byte.backtick] (by simp) (fun _ => rfl) fun i r => ?_
      change templateEnd i (c :: Byte.backtick :: r) = _
      rw [templateEnd_byte escape close (fun _ => head?_cons_ne (by decide) _),
        templateEnd_backtick]
  | cons d t =>
      by_cases block : c = Byte.dollar ∧ d = Byte.openBrace
      · obtain ⟨rfl, rfl⟩ := block
        refine Outlook.through [Byte.dollar, Byte.openBrace]
          (fun i s => ?_) (fun h => (blockEnd_bounds h).2) ((shorter t (by simp)).block 0)
          (fun n => (shorter (t.drop n) (by simp; omega)).template) closable_template
        change templateEnd i (Byte.dollar :: Byte.openBrace :: s) = (blockEnd (i + 2) 0 s).bind _
        rw [templateEnd, if_neg (by decide), if_neg (by decide), if_pos ⟨rfl, List.head?_cons⟩,
          List.drop_one, List.tail_cons]
        cases ended : blockEnd (i + 2) 0 s with
        | none => rfl
        | some j =>
            have bounds := blockEnd_bounds ended
            exact congrArg (templateEnd j) (goOn_cons (by omega) _ s)
      · refine (shorter (d :: t) (Nat.le_refl _)).template.onward (k := 1) (fun i s => ?_)
          (by simp only [List.length_cons]; omega)
        refine templateEnd_byte escape close (fun dollar => ?_) i
        exact head?_cons_ne (fun brace => block ⟨dollar, brace⟩) _

theorem outlook_block (c : UInt8) (depth : Nat) :
    Outlook .offset (fun i s => blockEnd i depth s) 0 (c :: t) := by
  have behind (n : Nat) := (shorter (t.drop n) (length_drop_le t n)).block depth
  have here := shorter t (Nat.le_refl _)
  have width : 0 + (c :: t).length = 1 + t.length := by
    rw [List.length_cons]
    omega
  by_cases opens : c = Byte.openBrace
  · refine (here.block (depth + 1)).onward (fun i s => ?_) width
    rw [List.cons_append, blockEnd, if_pos opens]
  by_cases closes : c = Byte.closeBrace
  · cases depth with
    | zero =>
        refine .ended (· + 1) 1 (fun _ => rfl) fun i s => ?_
        rw [List.cons_append, blockEnd, if_neg opens, if_pos closes, if_pos rfl]
    | succ depth =>
        refine (here.block depth).onward (fun i s => ?_) width
        rw [List.cons_append, blockEnd, if_neg opens, if_pos closes,
          if_neg (Nat.succ_ne_zero depth), Nat.add_sub_cancel]
  by_cases isQuote : Byte.isQuote c = true
  · refine Outlook.through [c] (fun i s => ?_) (fun h => (quotedEnd_bounds h).2)
      (outlook_quoted isQuote t) behind (closable_block depth)
    rw [List.singleton_append, blockEnd, if_neg opens, if_neg closes, if_pos isQuote]
    cases ended : quotedEnd c (i + 1) s <;> rfl
  by_cases backtick : c = Byte.backtick
  · refine Outlook.through [c] (fun i s => ?_) (fun h => (templateEnd_bounds h).2)
      here.template behind (closable_block depth)
    rw [List.singleton_append, blockEnd, if_neg opens, if_neg closes, if_neg isQuote,
      if_pos backtick]
    cases ended : templateEnd (i + 1) s <;> rfl
  by_cases less : c = Byte.less
  · refine Outlook.attempt c (fun i s => ?_) elementEnd_bounds here.element
      (fun a n told => ⟨_, fun i => ⟨told i, rfl⟩⟩) (fun _ => behind)
      (fun _ => closable_block depth) (here.block depth)
    rw [blockEnd, if_neg opens, if_neg closes, if_neg isQuote, if_neg backtick, if_pos less]
    cases elementEnd i (t ++ s) <;> rfl
  · refine (here.block depth).onward (fun i s => ?_) width
    exact blockEnd_byte (by simp [Part.isPlain, opens, closes, isQuote, backtick, less]) i depth _

theorem outlook_body (c : UInt8) : Outlook .body bodyEnd? 0 (c :: t) := by
  have behind (n : Nat) := (shorter (t.drop n) (length_drop_le t n)).body
  have here := shorter t (Nat.le_refl _)
  by_cases isQuote : Byte.isQuote c = true
  · refine Outlook.through [c] (fun i s => ?_) (fun h => (quotedEnd_bounds h).2)
      (outlook_quoted isQuote t) behind closable_body
    rw [List.singleton_append, bodyEnd?, if_pos isQuote]
    cases ended : quotedEnd c (i + 1) s <;> rfl
  by_cases backtick : c = Byte.backtick
  · refine Outlook.through [c] (fun i s => ?_) (fun h => (templateEnd_bounds h).2)
      here.template behind closable_body
    rw [List.singleton_append, bodyEnd?, if_neg isQuote, if_pos backtick]
    cases ended : templateEnd (i + 1) s <;> rfl
  by_cases opens : c = Byte.openBrace
  · refine Outlook.through [c] (fun i s => ?_) (fun h => (blockEnd_bounds h).2)
      (here.block 0) behind closable_body
    rw [List.singleton_append, bodyEnd?, if_neg isQuote, if_neg backtick, if_pos opens]
    cases ended : blockEnd (i + 1) 0 s <;> rfl
  by_cases greater : c = Byte.greater
  · subst greater
    exact .ended (fun i => (i, false)) 1 ⟨0, false, fun _ => rfl, rfl⟩ fun i s =>
      bodyEnd?_tagEnding false i (t ++ s)
  by_cases less : c = Byte.less
  · refine .never fun i s => ?_
    rw [List.cons_append, bodyEnd?, if_neg isQuote, if_neg backtick, if_neg opens,
      if_neg (fun h => absurd (less.symm.trans h.1) (by decide)), if_neg greater, if_pos less]
  cases t with
  | nil =>
      by_cases slash : c = Byte.slash
      · subst slash
        exact .endable (fun i => (i, true)) [Byte.greater] (by simp) ⟨0, true, fun _ => rfl, rfl⟩
          fun i r => bodyEnd?_tagEnding true i r
      · refine closable_body.behind (s := []) fun i r => ?_
        change bodyEnd? i (c :: r) = _
        rw [bodyEnd?, if_neg isQuote, if_neg backtick, if_neg opens, if_neg (fun h => slash h.1),
          if_neg greater, if_neg less]
        rfl
  | cons d t =>
      by_cases ends : c = Byte.slash ∧ d = Byte.greater
      · obtain ⟨rfl, rfl⟩ := ends
        exact .ended (fun i => (i, true)) 2 ⟨0, true, fun _ => rfl, rfl⟩ fun i s =>
          bodyEnd?_tagEnding true i (t ++ s)
      · refine here.body.onward (k := 1) (fun i s => ?_) (by simp only [List.length_cons]; omega)
        rw [List.cons_append, bodyEnd?, if_neg isQuote, if_neg backtick, if_neg opens,
          if_neg (fun h => ends ⟨h.1, by simpa using h.2⟩), if_neg greater, if_neg less]

theorem outlook_content (c : UInt8) {name : Bytes} (hn : ∀ c ∈ name, isNameByte c = true)
    (depth : Nat) : Outlook .offset (fun i s => contentEnd i name depth s) 0 (c :: t) := by
  have behind (n : Nat) (depth : Nat) :=
    (shorter (t.drop n) (length_drop_le t n)).content hn depth
  have here := shorter t (Nat.le_refl _)
  by_cases opens : c = Byte.openBrace
  · refine Outlook.through [c] (fun i s => ?_) (fun h => (blockEnd_bounds h).2)
      (here.block 0) (fun n => behind n depth) (closable_content hn depth)
    rw [List.singleton_append, contentEnd, if_pos opens]
    cases ended : blockEnd (i + 1) 0 s <;> rfl
  by_cases less : c = Byte.less
  · subst less
    cases t with
    | nil =>
        have plain : Part.content.isPlain Byte.space = true := by decide
        refine (closable_content hn depth).behind (s := [Byte.space]) fun i r => ?_
        have noTag : openTag? i (Byte.space :: r) = none := by
          rw [openTag?, if_neg (by decide)]
        change contentEnd i name depth (Byte.less :: Byte.space :: r) =
          contentEnd (i + 2) name depth r
        rw [contentEnd, if_neg opens, if_pos rfl, if_neg (head?_cons_ne (by decide) _),
          if_neg (head?_cons_ne (by decide) _), if_neg (head?_cons_ne (by decide) _), noTag]
        exact contentEnd_byte plain (i + 1) name depth r
    | cons d t =>
        by_cases slash : d = Byte.slash
        · subst slash
          exact outlook_closeTag t hn depth fun u depth within =>
            (shorter u (by rwa [List.length_cons])).content hn depth
        by_cases bang : d = Byte.bang
        · subst bang
          refine Outlook.through [Byte.less, Byte.bang] (fun i s => ?_)
            (fun h => (declarationEnd_bounds h).2) (outlook_declaration t)
            (fun n => (shorter (t.drop n) (by simp; omega)).content hn depth)
            (closable_content hn depth)
          change contentEnd i name depth (Byte.less :: Byte.bang :: s) =
            (declarationEnd (i + 2) s).bind _
          rw [contentEnd, if_neg opens, if_pos rfl, if_neg (head?_cons_ne (by decide) _),
            if_pos List.head?_cons, List.drop_one, List.tail_cons]
          cases ended : declarationEnd (i + 2) s with
          | none => rfl
          | some j =>
              have bounds := declarationEnd_bounds ended
              exact congrArg (contentEnd j name depth) (goOn_cons (by omega) _ s)
        by_cases greater : d = Byte.greater
        · subst greater
          refine ((shorter t (by simp)).content hn _).onward (k := 2)
            (fun i s => contentEnd_openFragment i name depth (t ++ s))
            (by simp only [List.length_cons]; omega)
        have later (tag : OpenTag) (n : Nat) := behind n
          (if tag.name = name ∧ tag.closesItself = false then depth + 1 else depth)
        refine Outlook.attempt Byte.less (fun i s => ?_) openTag?_bounds here.tag
          (fun a n told => ?_) later (fun _ => closable_content hn _) (here.content hn depth)
        · rw [contentEnd, if_neg opens, if_pos rfl, List.cons_append,
            if_neg (head?_cons_ne slash _), if_neg (head?_cons_ne bang _),
            if_neg (head?_cons_ne greater _)]
          cases openTag? i (d :: (t ++ s)) <;> rfl
        · obtain ⟨own, itself, same⟩ := tag_same told
          refine ⟨fun j s => contentEnd j name
            (if own = name ∧ itself = false then depth + 1 else depth) s, fun i => ?_⟩
          simp only [same, true_and]
  · refine (here.content hn depth).onward (k := 1) (fun i s => ?_)
      (by simp only [List.length_cons]; omega)
    exact contentEnd_byte (by simp [Part.isPlain, opens, less]) i name depth _

theorem outlook_tag (c : UInt8) : Outlook .tag openTag? 1 (c :: t) := by
  by_cases letter : Byte.isLetter c = true
  · obtain ⟨tail, w, rfl, names, apart⟩ := exists_run isNameByte t
    have isName : IsTagName (c :: tail) := ⟨letter, names⟩
    cases w with
    | nil =>
        rw [List.append_nil]
        refine .endable (fun i => ⟨i, c :: tail, i + 1 + (c :: tail).length, false⟩) [Byte.greater]
          (by simp) ⟨0, c :: tail, 1 + (c :: tail).length, false, fun i => ?_, rfl⟩ fun i r => ?_
        · simp only [Nat.add_assoc, Nat.add_zero]
        · exact openTag?_bare isName i r
    | cons d w =>
        have read (i : Nat) (s : Bytes) : openTag? i (c :: (tail ++ d :: w ++ s)) =
            (bodyEnd? (i + 2 + tail.length) (d :: w ++ s)).map
              fun e => ⟨i, c :: tail, e.1, e.2⟩ := by
          have run : (tail ++ (d :: w ++ s)).takeWhile isNameByte = tail :=
            takeWhile_append_stop names fun e first => apart e first
          rw [openTag?, if_pos letter, List.append_assoc]
          simp only [run, List.drop_left]
          cases bodyEnd? (i + 2 + tail.length) (d :: w ++ s) <;> rfl
        cases (shorter (d :: w) (by simp)).body with
        | ended a n told h =>
            obtain ⟨m, slashed, same, rfl⟩ := told
            refine .ended (fun i => ⟨i, c :: tail, i + 2 + tail.length + m, slashed⟩) _
              ⟨0, c :: tail, 2 + tail.length + m, slashed, fun i => ?_, rfl⟩ fun i s => ?_
            · simp only [Nat.add_assoc, Nat.add_zero]
            · rw [List.cons_append, read, h, same]
              rfl
        | endable a s ne told h =>
            obtain ⟨m, slashed, same, width⟩ := told
            refine .endable (fun i => ⟨i, c :: tail, i + 2 + tail.length + m, slashed⟩) s ne
              ⟨0, c :: tail, 2 + tail.length + m, slashed, fun i => ?_, ?_⟩ fun i r => ?_
            · simp only [Nat.add_assoc, Nat.add_zero]
            · simp only [List.length_cons, List.length_append] at width ⊢
              omega
            · rw [List.cons_append, read, h, same]
              rfl
        | never h =>
            refine .never fun i s => ?_
            rw [List.cons_append, read, h, Option.map_none]
  · refine .never fun i s => ?_
    rw [List.cons_append, openTag?, if_neg letter]

theorem outlook_element (c : UInt8) : Outlook .offset elementEnd 1 (c :: t) := by
  by_cases greater : c = Byte.greater
  · subst greater
    refine ((shorter t (Nat.le_refl _)).content noName 0).onward (k := 2)
      (fun i s => elementEnd_openFragment i (t ++ s)) (by simp only [List.length_cons]; omega)
  have read (i : Nat) (s : Bytes) : elementEnd i (c :: t ++ s) =
      (openTag? i (c :: t ++ s)).bind fun tag =>
        if tag.closesItself then some tag.stop
        else contentEnd tag.stop tag.name 0 (goOn (i + 2) tag.stop (t ++ s)) := by
    rw [List.cons_append, elementEnd, if_neg greater]
    cases openTag? i (c :: (t ++ s)) <;> rfl
  cases outlook_tag shorter c with
  | ended a n told h =>
      obtain ⟨own, itself, same⟩ := tag_same told
      have bounds := openTag?_bounds (h 0 [])
      rw [(same 0).2.2, List.append_nil, List.length_cons] at bounds
      cases itself with
      | true =>
          refine .ended (· + n) n (fun i => rfl) fun i s => ?_
          rw [read, h, Option.bind_some]
          simp only [same, if_true]
      | false =>
          have names := names_of_openTag (h 0 [])
          rw [(same 0).1] at names
          have within : n - 2 ≤ t.length := by omega
          refine ((shorter (t.drop (n - 2)) (length_drop_le t _)).content names 0).onward (k := n)
            (fun i s => ?_) ?_
          · have place : i + n = i + 2 + (n - 2) := by omega
            rw [read, h, Option.bind_some]
            simp only [same, Bool.false_eq_true, if_false]
            rw [place, goOn_within within]
          · rw [List.length_cons, List.length_drop]
            omega
  | endable a s ne told h =>
      obtain ⟨own, itself, same⟩ := tag_same told
      cases itself with
      | true =>
          refine .endable (· + (1 + (c :: t).length + s.length)) s ne (fun i => rfl) fun i r => ?_
          rw [read, h, Option.bind_some]
          simp only [same, if_true]
      | false =>
          have names := names_of_openTag (h 0 [])
          rw [(same 0).1] at names
          refine (closable_content names 0).behind (s := s) fun i r => ?_
          have place : i + (1 + (c :: t).length + s.length) = i + 2 + (t.length + s.length) := by
            rw [List.length_cons]
            omega
          rw [read, h, Option.bind_some]
          simp only [same, Bool.false_eq_true, if_false]
          rw [place, goOn_behind]
  | never h =>
      refine .never fun i s => ?_
      rw [read, h, Option.bind_none]

end

/-- Of every unit that may be read from a text it is certain whether the text ends it, can be
continued to end it, or keeps it from ever ending. -/
theorem foreseen (t : Bytes) : Foreseen t := by
  induction size : t.length using Nat.strongRecOn generalizing t with
  | _ size' ih =>
      cases t with
      | nil =>
          have letter : IsTagName (utf8 "p") := by decide
          refine ⟨closable_template.outlook, fun depth => (closable_block depth).outlook, ?_, ?_,
            closable_body.outlook, fun hn depth => (closable_content hn depth).outlook⟩
          · exact (closable_content noName 0).behind (s := [Byte.greater])
              fun i r => elementEnd_openFragment i r
          · refine .endable (fun i => ⟨i, utf8 "p", i + 2, false⟩) (utf8 "p>") (by decide)
              ⟨0, utf8 "p", 2, false, fun i => rfl, rfl⟩ fun i r => ?_
            exact openTag?_bare letter i r
      | cons c t =>
          have shorter (u : Bytes) (within : u.length ≤ t.length) : Foreseen u :=
            ih u.length (by rw [← size, List.length_cons]; omega) u rfl
          exact ⟨outlook_template shorter c, outlook_block shorter c, outlook_element shorter c,
            outlook_tag shorter c, outlook_body shorter c,
            fun hn depth => outlook_content shorter c hn depth⟩

end MarkupEdit.Scan
