import MarkupEdit.Proofs.TextParts

/-!
White space and words. No white space character begins another one or holds a blank, so a text has
one division into white space and ink: trimming takes off all the white space in front and behind,
and words joined by blanks are the words of what comes out.
-/

namespace MarkupEdit.Bytes

/-- White space characters, one behind the other. -/
inductive White : Bytes → Prop where
  | nil : White []
  | form {f b : Bytes} (mem : f ∈ spaceForms) (hb : White b) : White (f ++ b)

theorem White.append {b c : Bytes} (hb : White b) (hc : White c) : White (b ++ c) := by
  induction hb with
  | nil => exact hc
  | form mem hb ih =>
      rw [List.append_assoc]
      exact .form mem ih

theorem White.ofForm {f : Bytes} (mem : f ∈ spaceForms) : White f := by
  have single := White.form mem .nil
  rwa [List.append_nil] at single

theorem form_ne_nil : ∀ f ∈ spaceForms, f ≠ [] := by decide +kernel

theorem form_eq_of_begins : ∀ f ∈ spaceForms, ∀ g ∈ spaceForms, f <+: g → f = g := by
  decide +kernel

theorem spaceForm_blank : [Byte.space] ∈ spaceForms := by decide +kernel

theorem eq_of_blank_mem : ∀ f ∈ spaceForms, Byte.space ∈ f → f = [Byte.space] := by
  decide +kernel

theorem spaceWidth_eq_zero {s : Bytes} :
    spaceWidth s = 0 ↔ ∀ f ∈ spaceForms, ¬ f <+: s := by
  constructor
  · intro width f mem begins
    rw [spaceWidth] at width
    split at width
    next absent =>
      have here := List.find?_eq_none.1 absent f mem
      exact here (List.isPrefixOf_iff_prefix.2 begins)
    next form found =>
      exact form_ne_nil form (List.mem_of_find?_eq_some found) (List.length_eq_zero_iff.1 width)
  · intro none
    cases width : spaceWidth s with
    | zero => rfl
    | succ n =>
        obtain ⟨form, mem, -, begins⟩ := spaceForm_of_spaceWidth width
        exact absurd begins (none form mem)

theorem form_split {c : UInt8} {t : Bytes} {n : Nat} (h : spaceWidth (c :: t) = n + 1) :
    ∃ form ∈ spaceForms, form.length = n + 1 ∧ c :: t = form ++ t.drop n := by
  obtain ⟨form, mem, length, s, split⟩ := spaceForm_of_spaceWidth h
  have dropped := congrArg (List.drop (n + 1)) split
  rw [← length, List.drop_left, length, List.drop_succ_cons] at dropped
  exact ⟨form, mem, length, by rw [← dropped, split]⟩

/-- White space is read as the one character that stands there. -/
theorem spaceWidth_form {f : Bytes} (mem : f ∈ spaceForms) (s : Bytes) :
    spaceWidth (f ++ s) = f.length := by
  cases width : spaceWidth (f ++ s) with
  | zero => exact absurd (List.prefix_append f s) (spaceWidth_eq_zero.1 width f mem)
  | succ n =>
      obtain ⟨form, mem', length, begins⟩ := spaceForm_of_spaceWidth width
      have same : form = f := by
        rcases List.prefix_or_prefix_of_prefix begins (List.prefix_append f s) with h | h
        · exact form_eq_of_begins form mem' f mem h
        · exact (form_eq_of_begins f mem form mem' h).symm
      rw [← length, same]

theorem spaceWidth_nil : spaceWidth [] = 0 :=
  spaceWidth_eq_zero.2 fun f mem begins => form_ne_nil f mem (List.prefix_nil.1 begins)

theorem trimStart_form {f : Bytes} (mem : f ∈ spaceForms) (s : Bytes) :
    trimStart (f ++ s) = trimStart s := by
  obtain ⟨c, t, rfl⟩ := List.exists_cons_of_ne_nil (form_ne_nil f mem)
  have width : spaceWidth (c :: (t ++ s)) = t.length + 1 := spaceWidth_form mem s
  rw [List.cons_append, trimStart, width]
  dsimp only
  rw [List.drop_left]

theorem White.trimStart {b : Bytes} (white : White b) (s : Bytes) :
    Bytes.trimStart (b ++ s) = Bytes.trimStart s := by
  induction white with
  | nil => rfl
  | form mem hb ih => rw [List.append_assoc, trimStart_form mem, ih]

theorem white_front (text : Bytes) : ∃ gap, White gap ∧ text = gap ++ text.trimStart := by
  fun_induction trimStart text with
  | case1 => exact ⟨[], .nil, rfl⟩
  | case2 => exact ⟨[], .nil, rfl⟩
  | case3 c t n width ih =>
      obtain ⟨form, mem, -, split⟩ := form_split width
      obtain ⟨gap, white, rest⟩ := ih
      refine ⟨form ++ gap, .form mem white, ?_⟩
      rw [List.append_assoc, ← rest, split]

/-- All behind the last ink is white space. The white space met since that ink is `g`, and what
stands before it is `u`. -/
theorem white_behind_inkEnd {i last : Nat} {s u g : Bytes} (hl : last = u.length)
    (hi : i = u.length + g.length) (hg : White g) :
    White ((u ++ (g ++ s)).drop (inkEnd i last s)) := by
  fun_induction inkEnd i last s generalizing u g with
  | case1 =>
      rw [hl, List.drop_left, List.append_nil]
      exact hg
  | case2 i last c t width ih =>
      have shifted := ih (u := u ++ (g ++ [c])) (g := []) (by simp; omega) (by simp; omega) .nil
      simpa using shifted
  | case3 i last c t n width ih =>
      obtain ⟨form, mem, length, split⟩ := form_split width
      have shifted := ih hl (g := g ++ form) (by rw [List.length_append]; omega)
        (hg.append (.ofForm mem))
      rwa [List.append_assoc, ← split] at shifted

/-- A text is its trimmed form between white space. -/
theorem trim_split (text : Bytes) :
    ∃ lead trail, White lead ∧ White trail ∧ text = lead ++ text.trimStart ∧
      text.trimStart = text.trim ++ trail := by
  obtain ⟨lead, white, split⟩ := white_front text
  exact ⟨lead, _, white, white_behind_inkEnd (u := []) (g := []) rfl rfl .nil, split,
    (List.take_append_drop _ _).symm⟩

theorem trim_eq_nil_iff {text : Bytes} : text.trim = [] ↔ White text := by
  constructor
  · intro empty
    obtain ⟨lead, trail, hlead, htrail, split, rest⟩ := trim_split text
    rw [split, rest, empty]
    exact hlead.append htrail
  · intro white
    have front := white.trimStart []
    rw [List.append_nil, Bytes.trimStart] at front
    rw [trim, front, trimEnd, inkEnd]
    rfl

/-- No white space begins anywhere in the text. -/
def Solid (w : Bytes) : Prop := ∀ u v, w = u ++ v → spaceWidth v = 0

theorem Solid.tail {c : UInt8} {w : Bytes} (h : Solid (c :: w)) : Solid w :=
  fun u v split => h (c :: u) v (by rw [split, List.cons_append])

/-- A blank behind ink makes no white space of it. -/
theorem Solid.blank {w : Bytes} (h : Solid w) (ne : w ≠ []) (s : Bytes) :
    spaceWidth (w ++ Byte.space :: s) = 0 := by
  rw [spaceWidth_eq_zero]
  intro f mem begins
  by_cases fits : f.length ≤ w.length
  · have inside := List.prefix_of_prefix_length_le begins (List.prefix_append _ _) fits
    exact spaceWidth_eq_zero.1 (h [] w rfl) f mem inside
  · -- A longer one would hold the blank.
    have longer : w ++ [Byte.space] <+: f := by
      refine List.prefix_of_prefix_length_le ⟨s, by simp⟩ begins ?_
      rw [List.length_append, List.length_singleton]
      omega
    have blank := eq_of_blank_mem f mem (longer.subset (by simp))
    have width := longer.length_le
    have pos := List.length_pos_iff.2 ne
    rw [blank, List.length_append] at width
    simp only [List.length_singleton] at width
    omega

structure IsWord (w : Bytes) : Prop where
  ne : w ≠ []
  solid : Solid w

theorem wordsFrom_blank (word s : Bytes) :
    wordsFrom word (Byte.space :: s) = consWord word.reverse (wordsFrom [] s) := by
  have width : spaceWidth (Byte.space :: s) = 1 := spaceWidth_form spaceForm_blank s
  rw [wordsFrom, width]
  rfl

theorem Solid.wordsFrom_blank {w : Bytes} (h : Solid w) (word s : Bytes) :
    wordsFrom word (w ++ Byte.space :: s) = consWord (word.reverse ++ w) (wordsFrom [] s) := by
  induction w generalizing word with
  | nil => rw [List.nil_append, Bytes.wordsFrom_blank, List.append_nil]
  | cons c w ih =>
      have width : spaceWidth (c :: (w ++ Byte.space :: s)) = 0 := h.blank (List.cons_ne_nil c w) s
      rw [List.cons_append, wordsFrom, width]
      dsimp only
      rw [ih h.tail, List.reverse_cons, List.append_assoc, List.singleton_append]

theorem Solid.wordsFrom {w : Bytes} (h : Solid w) (word : Bytes) :
    wordsFrom word w = consWord (word.reverse ++ w) [] := by
  induction w generalizing word with
  | nil => rw [Bytes.wordsFrom, List.append_nil]
  | cons c w ih =>
      rw [Bytes.wordsFrom, h [] (c :: w) rfl]
      dsimp only
      rw [ih h.tail, List.reverse_cons, List.append_assoc, List.singleton_append]

theorem IsWord.consWord {w : Bytes} (h : IsWord w) (ws : List Bytes) : consWord w ws = w :: ws := by
  rw [Bytes.consWord, if_neg (by simpa using h.ne)]

/-- Words joined by blanks are read back. -/
theorem words_unwords {ws : List Bytes} (h : ∀ w ∈ ws, IsWord w) : (unwords ws).words = ws := by
  induction ws with
  | nil =>
      rw [unwords, List.intercalate_nil, words, wordsFrom]
      rfl
  | cons w rest ih =>
      obtain ⟨first, later⟩ := List.forall_mem_cons.1 h
      cases rest with
      | nil =>
          have single : unwords [w] = w := by simp [unwords]
          rw [single, words, first.solid.wordsFrom, List.reverse_nil, List.nil_append,
            first.consWord]
      | cons x rest =>
          have split : unwords (w :: x :: rest) = w ++ Byte.space :: unwords (x :: rest) := by
            simp [unwords]
          rw [split, words, first.solid.wordsFrom_blank, List.reverse_nil, List.nil_append,
            first.consWord, ← words, ih later]

/-- No white space begins in the bytes of `word`, where the text goes on behind them. -/
def Begun (word text : Bytes) : Prop :=
  ∀ u v, word = u ++ v → v ≠ [] → spaceWidth (v ++ text) = 0

theorem Begun.nil (text : Bytes) : Begun [] text := fun _ _ split ne =>
  absurd (List.append_eq_nil_iff.1 split.symm).2 ne

theorem Begun.consWord {word text : Bytes} (h : Begun word text) {ws : List Bytes}
    (hw : ∀ w ∈ ws, IsWord w) : ∀ w ∈ consWord word ws, IsWord w := by
  rw [Bytes.consWord]
  split
  · exact hw
  next ne =>
    refine List.forall_mem_cons.2 ⟨⟨by simpa using ne, fun u v split => ?_⟩, hw⟩
    by_cases none : v = []
    · rw [none, spaceWidth_nil]
    · have longer := spaceWidth_eq_zero.1 (h u v split none)
      exact spaceWidth_eq_zero.2 fun f mem begins =>
        longer f mem (begins.trans (List.prefix_append v text))

theorem Begun.concat {word t : Bytes} {c : UInt8} (h : Begun word (c :: t))
    (width : spaceWidth (c :: t) = 0) : Begun (word ++ [c]) t := by
  intro u v split ne
  obtain ⟨v, d, rfl⟩ : ∃ v' d, v = v' ++ [d] :=
    ⟨_, _, (List.dropLast_concat_getLast ne).symm⟩
  rw [← List.append_assoc] at split
  obtain ⟨front, last⟩ := List.append_inj' split rfl
  obtain rfl : c = d := (List.cons.inj last).1
  rw [List.append_assoc, List.singleton_append]
  by_cases none : v = []
  · rw [none, List.nil_append, width]
  · exact h u v front none

theorem isWord_wordsFrom {word text : Bytes} (h : Begun word.reverse text) :
    ∀ w ∈ wordsFrom word text, IsWord w := by
  fun_induction Bytes.wordsFrom word text with
  | case1 word => exact h.consWord (List.forall_mem_nil _)
  | case2 word c t width ih =>
      apply ih
      rw [List.reverse_cons]
      exact h.concat width
  | case3 word c t n width ih => exact h.consWord (ih (.nil _))

theorem isWord_of_mem_words {text w : Bytes} (mem : w ∈ text.words) : IsWord w :=
  isWord_wordsFrom (show Begun [].reverse text from .nil text) w mem

end MarkupEdit.Bytes
