import MarkupEdit.Proofs.LiteralRoundTrip
import MarkupEdit.Proofs.WhiteSpace

/-!
Texts without white space around them. The end of the ink in a text does not depend on where the
text stands, so what was trimmed once is not trimmed further, and a byte that belongs to no white
space character keeps all that stands in front of it.
-/

namespace MarkupEdit.Bytes

/-- No white space stands in front of the text or behind it. -/
def Trimmed (text : Bytes) : Prop := text.trim = text

instance (text : Bytes) : Decidable (Trimmed text) :=
  inferInstanceAs (Decidable (text.trim = text))

theorem inkEnd_shift (i last k : Nat) (text : Bytes) :
    inkEnd (i + k) (last + k) text = inkEnd i last text + k := by
  fun_induction inkEnd i last text with
  | case1 => rw [inkEnd]
  | case2 i last c t width ih =>
      rw [inkEnd, width]
      dsimp only
      rw [← ih, Nat.add_right_comm]
  | case3 i last c t n width ih =>
      have place : i + k + 1 + n = i + 1 + n + k := by omega
      rw [inkEnd, width]
      dsimp only
      rw [← ih, place]

/-- The ink ends where it was known to end, or in the text. -/
theorem inkEnd_cases {i last : Nat} (text : Bytes) :
    inkEnd i last text = last ∨
      i < inkEnd i last text ∧ inkEnd i last text ≤ i + text.length := by
  fun_induction inkEnd i last text with
  | case1 => exact .inl rfl
  | case2 i last c t width ih =>
      rw [List.length_cons]
      omega
  | case3 i last c t n width ih =>
      obtain ⟨form, -, length, split⟩ := form_split width
      have whole := congrArg List.length split
      rw [List.length_append, List.length_cons] at whole
      rw [List.length_cons]
      omega

/-- Where the ink was known to end only counts for a text without ink. -/
theorem inkEnd_last {i last : Nat} (last' : Nat) (text : Bytes) :
    inkEnd i last text = inkEnd i last' text ∨
      inkEnd i last text = last ∧ inkEnd i last' text = last' := by
  fun_induction inkEnd i last text with
  | case1 => exact .inr ⟨rfl, by rw [inkEnd]⟩
  | case2 i last c t width ih =>
      left
      rw [inkEnd, width]
  | case3 i last c t n width ih =>
      rw [inkEnd.eq_def i last' (c :: t)]
      dsimp only
      rw [width]
      exact ih

/-- Up to the end of the ink there is as much ink as in the whole text. -/
theorem inkEnd_take {i last : Nat} {text : Bytes} (h : last ≤ i) :
    inkEnd i last (text.take (inkEnd i last text - i)) = inkEnd i last text := by
  fun_induction inkEnd i last text with
  | case1 => rw [List.take_nil, inkEnd]
  | case2 i last c t width ih =>
      have least : i + 1 ≤ inkEnd (i + 1) (i + 1) t := by
        rcases @inkEnd_cases (i + 1) (i + 1) t with h | h <;> omega
      obtain ⟨k, hk⟩ := Nat.exists_eq_add_of_le least
      have taken : inkEnd (i + 1) (i + 1) t - i = k + 1 := by omega
      have inner : inkEnd (i + 1) (i + 1) t - (i + 1) = k := by omega
      have start : spaceWidth (c :: t.take k) = 0 :=
        spaceWidth_eq_zero.2 fun f mem begins => spaceWidth_eq_zero.1 width f mem
          (begins.trans (List.take_prefix (k + 1) (c :: t)))
      rw [inner] at ih
      rw [taken, List.take_succ_cons, inkEnd, start]
      exact ih (Nat.le_refl _)
  | case3 i last c t n width ih =>
      obtain ⟨form, mem, length, split⟩ := form_split width
      rcases @inkEnd_cases (i + 1 + n) last (t.drop n) with none | ⟨more, -⟩
      · rw [none, Nat.sub_eq_zero_of_le h, List.take_zero, inkEnd]
      · obtain ⟨k, hk⟩ := Nat.exists_eq_add_of_le (Nat.le_of_lt more)
        have taken : inkEnd (i + 1 + n) last (t.drop n) - i = form.length + k := by omega
        have inner : inkEnd (i + 1 + n) last (t.drop n) - (i + 1 + n) = k := by omega
        rw [inner] at ih
        obtain ⟨d, form, rfl⟩ := List.exists_cons_of_ne_nil (form_ne_nil form mem)
        have start : spaceWidth (d :: (form ++ (t.drop n).take k)) = n + 1 :=
          length ▸ spaceWidth_form mem _
        have shorter : form.length = n := by simpa using length
        rw [taken, split, List.take_length_add_append, List.cons_append, inkEnd, start]
        dsimp only
        rw [List.drop_left' shorter]
        exact ih (by omega)

/-- Ink keeps what stands in front of it. -/
theorem trimEnd_append_ink {c : UInt8} (ink : Ink c) (front back : Bytes) :
    trimEnd (front ++ c :: back) = front ++ c :: trimEnd back := by
  have run (i last : Nat) : inkEnd i last (front ++ c :: back) =
      inkEnd (i + front.length + 1) (i + front.length + 1) back := by
    generalize whole : front ++ c :: back = u
    fun_induction inkEnd i last u generalizing front with
    | case1 => simp at whole
    | case2 i last d t width ih =>
        cases front with
        | nil =>
            cases whole
            rfl
        | cons e front =>
            cases whole
            rw [ih front rfl, List.length_cons, Nat.add_assoc i, Nat.add_comm 1]
    | case3 i last d t n width ih =>
        obtain ⟨form, mem, length, begins⟩ := spaceForm_of_spaceWidth width
        have short : form.length ≤ front.length := by
          by_contra longer
          have before : front ++ [c] <+: form :=
            List.prefix_of_prefix_length_le ⟨back, by rw [← whole]; simp⟩ begins
              (by rw [List.length_append, List.length_singleton]; omega)
          exact ink form mem (before.subset (by simp))
        cases front with
        | nil =>
            rw [List.length_nil, length] at short
            cases short
        | cons e front =>
            obtain ⟨rfl, rfl⟩ := List.cons.inj whole
            rw [List.length_cons] at short
            rw [ih (front.drop n) (List.drop_append_of_le_length (by omega)).symm,
              List.length_drop, List.length_cons]
            have place : i + 1 + n + (front.length - n) + 1 = i + (front.length + 1) + 1 := by
              omega
            rw [place]
  have shift := inkEnd_shift 0 0 (front.length + 1) back
  rw [Nat.zero_add] at shift
  rw [trimEnd, run, Nat.zero_add, shift, trimEnd, Nat.add_comm, List.append_cons,
    List.append_cons front c (back.take _)]
  have width : (front ++ [c]).length = front.length + 1 := by simp
  rw [← width, List.take_length_add_append]

theorem White.inkEnd {b : Bytes} (white : White b) (i last : Nat) :
    Bytes.inkEnd i last b = last := by
  induction white generalizing i with
  | nil => rw [Bytes.inkEnd]
  | @form f b mem hb ih =>
      obtain ⟨c, t, rfl⟩ := List.exists_cons_of_ne_nil (form_ne_nil f mem)
      have width : spaceWidth (c :: (t ++ b)) = t.length + 1 := spaceWidth_form mem b
      rw [List.cons_append, Bytes.inkEnd, width]
      dsimp only
      rw [List.drop_left, ih]

theorem White.trimEnd {b : Bytes} (white : White b) : Bytes.trimEnd b = [] := by
  rw [Bytes.trimEnd, white.inkEnd, List.take_zero]

/-- White space on both sides of what begins and ends with ink is taken off. -/
theorem trim_between {lead trail : Bytes} (hl : White lead) (ht : White trail) {c d : UInt8}
    (first : Ink c) (last : Ink d) (s : Bytes) :
    trim (lead ++ (c :: (s ++ [d]) ++ trail)) = c :: (s ++ [d]) := by
  have split : c :: (s ++ [d]) ++ trail = (c :: s) ++ d :: trail := by simp
  rw [trim, hl.trimStart, split, List.cons_append, trimStart_ink first, ← List.cons_append,
    trimEnd_append_ink last, ht.trimEnd, List.cons_append]

theorem trimEnd_begins (text : Bytes) : text.trimEnd <+: text := List.take_prefix _ _

theorem spaceWidth_trimStart (text : Bytes) : spaceWidth text.trimStart = 0 := by
  fun_induction trimStart text with
  | case1 => exact spaceWidth_nil
  | case2 c t width => exact width
  | case3 c t n width ih => exact ih

theorem spaceWidth_of_begins {s t : Bytes} (begins : s <+: t) (width : spaceWidth t = 0) :
    spaceWidth s = 0 :=
  spaceWidth_eq_zero.2 fun f mem front => spaceWidth_eq_zero.1 width f mem (front.trans begins)

theorem trimStart_of_spaceWidth {t : Bytes} (width : spaceWidth t = 0) : t.trimStart = t := by
  cases t with
  | nil => rw [trimStart]
  | cons c t => rw [trimStart, width]

/-- White space ends where something else begins, so a text has one beginning without it. -/
theorem White.cancel {lead lead' s s' : Bytes} (hl : White lead) (hl' : White lead')
    (start : spaceWidth s = 0) (start' : spaceWidth s' = 0) (same : lead ++ s = lead' ++ s') :
    s = s' := by
  have front := congrArg Bytes.trimStart same
  rwa [hl.trimStart, hl'.trimStart, trimStart_of_spaceWidth start,
    trimStart_of_spaceWidth start'] at front

theorem trimEnd_trimEnd (t : Bytes) : t.trimEnd.trimEnd = t.trimEnd := by
  have whole := @inkEnd_take 0 0 t (Nat.le_refl 0)
  rw [Nat.sub_zero] at whole
  rw [trimEnd, trimEnd, whole, List.take_take, Nat.min_self]

theorem trimmed_trim (t : Bytes) : Trimmed t.trim := by
  have front : spaceWidth t.trim = 0 :=
    spaceWidth_of_begins (trimEnd_begins t.trimStart) (spaceWidth_trimStart t)
  rw [Trimmed, trim, trimStart_of_spaceWidth front]
  exact trimEnd_trimEnd t.trimStart

theorem trimmed_nil : Trimmed [] := by
  rw [Trimmed, trim, trimStart, trimEnd, List.take_nil]

theorem trim_subset (t : Bytes) : t.trim ⊆ t := by
  obtain ⟨gap, -, split⟩ := white_front t
  have back : t.trimStart ⊆ t := by
    intro b mem
    rw [split]
    exact List.mem_append_right gap mem
  exact fun b mem => back ((trimEnd_begins t.trimStart).subset mem)

theorem trim_space (t : Bytes) : trim (Byte.space :: t) = trim t := by
  have dropped : trimStart (Byte.space :: t) = trimStart t := trimStart_form spaceForm_blank t
  rw [trim, dropped, trim]

namespace Trimmed

variable {t : Bytes} (trimmed : Trimmed t)

include trimmed

theorem spaceWidth : Bytes.spaceWidth t = 0 := by
  have front := spaceWidth_of_begins (trimEnd_begins t.trimStart) (spaceWidth_trimStart t)
  rw [← trim, trimmed] at front
  exact front

theorem trimStart : t.trimStart = t := trimStart_of_spaceWidth trimmed.spaceWidth

theorem trimEnd : t.trimEnd = t := by
  have whole := trimmed
  rw [Trimmed, trim, trimmed.trimStart] at whole
  exact whole

end Trimmed

/-- Ink in front of a text that is trimmed ends the white space before it. -/
theorem trim_ink_append {c : UInt8} (ink : Ink c) {front : Bytes} (trimmed : Trimmed front)
    (back : Bytes) : trim (front ++ c :: back) = front ++ c :: trimEnd back := by
  have start : spaceWidth (front ++ c :: back) = 0 := by
    cases front with
    | nil => exact spaceWidth_ink ink back
    | cons d front =>
        refine spaceWidth_eq_zero.2 fun f mem begins => ?_
        by_cases fits : f.length ≤ (d :: front).length
        · have inside := List.prefix_of_prefix_length_le begins (List.prefix_append _ _) fits
          exact spaceWidth_eq_zero.1 trimmed.spaceWidth f mem inside
        · have longer : d :: front ++ [c] <+: f :=
            List.prefix_of_prefix_length_le ⟨back, by simp⟩ begins
              (by rw [List.length_append, List.length_singleton]; omega)
          exact ink f mem (longer.subset (by simp))
  rw [trim, trimStart_of_spaceWidth start, trimEnd_append_ink ink]

theorem trimmed_of_ink {t : Bytes} (ink : ∀ c ∈ t, Ink c) : Trimmed t := by
  cases t using List.reverseRecOn with
  | nil => exact trimmed_nil
  | append_singleton front c =>
      have start : spaceWidth (front ++ [c]) = 0 := by
        cases front with
        | nil => exact spaceWidth_ink (ink c (by simp)) []
        | cons d front => exact spaceWidth_ink (ink d (by simp)) _
      rw [Trimmed, trim, trimStart_of_spaceWidth start,
        trimEnd_append_ink (ink c (by simp)), trimEnd, List.take_nil]

/-- A blank goes with the white space that the text is, or stays in front of ink. -/
theorem trimEnd_space (t : Bytes) :
    trimEnd (Byte.space :: t) = if t.trimEnd = [] then [] else Byte.space :: t.trimEnd := by
  have width : spaceWidth (Byte.space :: t) = 1 := spaceWidth_form spaceForm_blank t
  have behind : inkEnd 0 0 (Byte.space :: t) = inkEnd 1 0 t := by
    rw [inkEnd, width]
    rfl
  have shift : inkEnd 1 1 t = inkEnd 0 0 t + 1 := inkEnd_shift 0 0 1 t
  rw [trimEnd, behind, trimEnd]
  rcases @inkEnd_last 1 0 1 t with same | ⟨none, none'⟩
  · rcases @inkEnd_cases 1 0 t with none | ⟨more, most⟩
    · omega
    · have ink : t.take (inkEnd 0 0 t) ≠ [] := by
        intro empty
        have length := congrArg List.length empty
        rw [List.length_take, List.length_nil] at length
        omega
      rw [if_neg ink, same, shift, List.take_succ_cons]
  · have white : inkEnd 0 0 t = 0 := by omega
    rw [none, white, List.take_zero, List.take_zero, if_pos rfl]

end MarkupEdit.Bytes
