import MarkupEdit.Markup.Scan.Bounds
import MarkupEdit.Markup.Units

/-!
Where units of markup end in a text of any bytes. A backslash takes one byte along, and that may
be the first byte of a longer character; all the same every unit ends behind an ASCII byte, so
its end is a place where the text can be cut.
-/

namespace MarkupEdit

/-- No character of a text in UTF-8 lies across the offset: one end of the text is there, or an
ASCII byte stands at it or right before it. -/
inductive Seam (text : Bytes) : Nat → Prop where
  | first : Seam text 0
  | last : Seam text text.length
  | here {i : Nat} {c : UInt8} (stands : text[i]? = some c) (ascii : c < 0x80) : Seam text i
  | behind {i : Nat} {c : UInt8} (stands : text[i]? = some c) (ascii : c < 0x80) :
      Seam text (i + 1)

theorem Seam.le {text : Bytes} {i : Nat} (h : Seam text i) : i ≤ text.length := by
  cases h with
  | first => exact Nat.zero_le _
  | last => exact Nat.le_refl _
  | here stands => exact Nat.le_of_lt (List.getElem?_eq_some_iff.1 stands).1
  | behind stands => exact (List.getElem?_eq_some_iff.1 stands).1

namespace Scan

/-- The byte `c` stands at offset `j`, when `s` stands at offset `i`. -/
def Shows (c : UInt8) (i : Nat) (s : Bytes) (j : Nat) : Prop := ∃ k, j = i + k ∧ s[k]? = some c

/-- The byte `c` stands right before offset `j`. -/
def EndsIn (c : UInt8) (i : Nat) (s : Bytes) (j : Nat) : Prop := ∃ k, j = k + 1 ∧ Shows c i s k

/-- An ASCII byte stands at offset `j`, when `s` stands at offset `i`. -/
def Meets (i : Nat) (s : Bytes) (j : Nat) : Prop :=
  ∃ k c, j = i + k ∧ s[k]? = some c ∧ c < 0x80

/-- An ASCII byte stands right before offset `j`. -/
def Ends (i : Nat) (s : Bytes) (j : Nat) : Prop := ∃ k, j = k + 1 ∧ Meets i s k

/-- A `</` stands before offset `j`. -/
def Closes (i : Nat) (s : Bytes) (j : Nat) : Prop :=
  ∃ k, utf8 "</" <+: s.drop k ∧ i + k + 2 ≤ j

theorem Shows.meets {c : UInt8} {i j : Nat} {s : Bytes} (h : Shows c i s j) (ascii : c < 0x80) :
    Meets i s j := by
  obtain ⟨k, rfl, stands⟩ := h
  exact ⟨k, c, rfl, stands, ascii⟩

theorem Shows.head (c : UInt8) (i : Nat) (t : Bytes) : Shows c i (c :: t) i := ⟨0, rfl, rfl⟩

theorem Shows.cons {c : UInt8} {i j : Nat} {t : Bytes} (h : Shows c (i + 1) t j) (d : UInt8) :
    Shows c i (d :: t) j := by
  obtain ⟨k, rfl, stands⟩ := h
  exact ⟨k + 1, by omega, by simpa using stands⟩

theorem Shows.drop {c : UInt8} {i j n : Nat} {s : Bytes} (h : Shows c (i + n) (s.drop n) j) :
    Shows c i s j := by
  obtain ⟨k, rfl, stands⟩ := h
  exact ⟨n + k, by omega, by simpa using stands⟩

theorem Shows.goOn {c : UInt8} {i j l : Nat} {s : Bytes} (h : Shows c j (goOn i j s) l)
    (le : i ≤ j) : Shows c i s l := by
  apply Shows.drop (n := j - i)
  rwa [Nat.add_sub_cancel' le]

theorem Shows.second {c : UInt8} {t : Bytes} (h : t.head? = some c) (i : Nat) (d : UInt8) :
    Shows c i (d :: t) (i + 1) := by
  obtain ⟨u, rfl⟩ := List.head?_eq_some_iff.1 h
  exact (Shows.head c (i + 1) u).cons d

theorem EndsIn.ends {c : UInt8} {i j : Nat} {s : Bytes} (h : EndsIn c i s j) (ascii : c < 0x80) :
    Ends i s j := by
  obtain ⟨k, rfl, shows⟩ := h
  exact ⟨k, rfl, shows.meets ascii⟩

theorem EndsIn.head (c : UInt8) (i : Nat) (t : Bytes) : EndsIn c i (c :: t) (i + 1) :=
  ⟨i, rfl, .head c i t⟩

theorem EndsIn.cons {c : UInt8} {i j : Nat} {t : Bytes} (h : EndsIn c (i + 1) t j) (d : UInt8) :
    EndsIn c i (d :: t) j := by
  obtain ⟨k, rfl, shows⟩ := h
  exact ⟨k, rfl, shows.cons d⟩

theorem EndsIn.drop {c : UInt8} {i j n : Nat} {s : Bytes} (h : EndsIn c (i + n) (s.drop n) j) :
    EndsIn c i s j := by
  obtain ⟨k, rfl, shows⟩ := h
  exact ⟨k, rfl, shows.drop⟩

theorem EndsIn.goOn {c : UInt8} {i j l : Nat} {s : Bytes} (h : EndsIn c j (goOn i j s) l)
    (le : i ≤ j) : EndsIn c i s l := by
  obtain ⟨k, rfl, shows⟩ := h
  exact ⟨k, rfl, shows.goOn le⟩

/-- A unit that ends with the text ends in its last byte. -/
theorem EndsIn.last {c : UInt8} {i : Nat} {s : Bytes} (h : EndsIn c i s (i + s.length)) :
    s = s.dropLast ++ [c] := by
  obtain ⟨k, stop, n, place, stands⟩ := h
  have same : n = s.length - 1 := by omega
  rw [same, ← List.getLast?_eq_getElem?] at stands
  obtain ⟨init, rfl⟩ := List.getLast?_eq_some_iff.1 stands
  rw [List.dropLast_concat]

theorem Closes.cons {i j : Nat} {t : Bytes} (h : Closes (i + 1) t j) (c : UInt8) :
    Closes i (c :: t) j := by
  obtain ⟨k, stands, le⟩ := h
  exact ⟨k + 1, by simpa using stands, by omega⟩

theorem Closes.drop {i j n : Nat} {s : Bytes} (h : Closes (i + n) (s.drop n) j) :
    Closes i s j := by
  obtain ⟨k, stands, le⟩ := h
  exact ⟨n + k, by simpa using stands, by omega⟩

theorem Closes.goOn {i j l : Nat} {s : Bytes} (h : Closes j (goOn i j s) l) (le : i ≤ j) :
    Closes i s l := by
  apply Closes.drop (n := j - i)
  rwa [Nat.add_sub_cancel' le]

theorem Closes.head {t : Bytes} {i j : Nat} (h : t.head? = some Byte.slash) (le : i + 2 < j) :
    Closes i (Byte.less :: t) j := by
  obtain ⟨u, rfl⟩ := List.head?_eq_some_iff.1 h
  exact ⟨0, ⟨u, rfl⟩, by omega⟩

theorem isQuote_ascii {c : UInt8} (h : Byte.isQuote c = true) : c < 0x80 := by
  simp only [Byte.isQuote, Bool.or_eq_true, beq_iff_eq] at h
  cases h with
  | inl h => rw [h]; decide
  | inr h => rw [h]; decide

theorem quotedEnd_endsIn {quote : UInt8} {i j : Nat} {s : Bytes}
    (h : quotedEnd quote i s = some j) : EndsIn quote i s j := by
  fun_induction quotedEnd quote i s with
  | case1 => simp at h
  | case2 => simp at h
  | case3 i d u ih => exact ((ih h).cons d).cons _
  | case4 i t notEscape =>
      cases h
      exact .head quote i t
  | case5 i c t _ _ ih => exact (ih h).cons c

theorem quotedEnd_ends {quote : UInt8} {i j : Nat} {s : Bytes} (hq : quote < 0x80)
    (h : quotedEnd quote i s = some j) : Ends i s j :=
  (quotedEnd_endsIn h).ends hq

theorem indexFrom?_endsIn {needle : Bytes} {c : UInt8} (last : needle.getLast? = some c)
    {i j : Nat} {s : Bytes} (h : Bytes.indexFrom? needle i s = some j) :
    EndsIn c i s (j + needle.length) := by
  have ne : needle ≠ [] := by
    intro empty
    simp [empty] at last
  have width := List.length_pos_iff.2 ne
  induction s generalizing i with
  | nil => simp [Bytes.indexFrom?, ne] at h
  | cons d t ih =>
      rw [Bytes.indexFrom?] at h
      split at h
      next found =>
        cases h
        have stands := List.isPrefixOf_iff_prefix.1 found
        refine ⟨_, by omega, needle.length - 1, rfl, ?_⟩
        rw [List.getLast?_eq_getElem?] at last
        obtain ⟨r, same⟩ := stands
        rw [← same, List.getElem?_append_left (by omega), last]
      next => exact (ih h).cons d

theorem declarationEnd_endsIn {i j : Nat} {s : Bytes} (h : declarationEnd i s = some j) :
    EndsIn Byte.greater i s j := by
  rw [declarationEnd] at h
  split at h
  · obtain ⟨k, found, rfl⟩ := Option.map_eq_some_iff.1 h
    exact EndsIn.drop (indexFrom?_endsIn (c := Byte.greater) rfl found)
  · obtain ⟨k, found, rfl⟩ := Option.map_eq_some_iff.1 h
    exact indexFrom?_endsIn (c := Byte.greater) rfl found

theorem declarationEnd_ends {i j : Nat} {s : Bytes} (h : declarationEnd i s = some j) :
    Ends i s j :=
  (declarationEnd_endsIn h).ends (by decide)

theorem closeTag_endsIn {i : Nat} {s : Bytes} {close : CloseTag}
    (h : CloseTag.after? i s = some close) : EndsIn Byte.greater i s close.stop := by
  simp only [CloseTag.after?] at h
  split at h
  · simp at h
  next c t tail =>
    split at h
    next greater =>
      cases h
      have stands := congrArg (·[0]?) tail
      simp only [List.drop_drop, List.getElem?_drop, List.getElem?_cons_zero] at stands
      rw [greater] at stands
      exact ⟨_, rfl, _, by simp only [Nat.add_zero, Nat.add_assoc], stands⟩
    · simp at h

theorem closeTag_ends {i : Nat} {s : Bytes} {close : CloseTag}
    (h : CloseTag.after? i s = some close) : Ends i s close.stop :=
  (closeTag_endsIn h).ends (by decide)

/-- An opening tag is a letter, more bytes of the name, and a body. -/
theorem openTag?_cases {start : Nat} {s : Bytes} {tag : OpenTag}
    (h : openTag? start s = some tag) :
    ∃ c t, s = c :: t ∧ Byte.isLetter c = true ∧ tag.start = start ∧
      tag.name = c :: t.takeWhile isNameByte ∧
      bodyEnd? (start + 1 + tag.name.length) (s.drop tag.name.length) =
        some (tag.bodyEnd, tag.slashed) := by
  rw [openTag?.eq_def] at h
  split at h
  · cases h
  next c t =>
    split at h
    next letter =>
      dsimp only at h
      split at h
      · cases h
      next bodyEnd slashed found =>
        cases h
        refine ⟨c, t, rfl, letter, rfl, rfl, ?_⟩
        rw [List.length_cons, List.drop_succ_cons, ← found]
        congr 1
        omega
    · cases h

/-- The byte at which the body of an opening tag ends. -/
abbrev bodyMark (slashed : Bool) : UInt8 := if slashed then Byte.slash else Byte.greater

theorem bodyMark_ascii (slashed : Bool) : bodyMark slashed < 0x80 := by
  cases slashed with
  | false => decide
  | true => decide

private theorem ends :
    (∀ i s j, templateEnd i s = some j → EndsIn Byte.backtick i s j) ∧
    (∀ i depth s j, blockEnd i depth s = some j → EndsIn Byte.closeBrace i s j) ∧
    (∀ start s j, elementEnd start s = some j → EndsIn Byte.greater (start + 1) s j) ∧
    (∀ start s tag, openTag? start s = some tag →
      Shows (bodyMark tag.slashed) (start + 1) s tag.bodyEnd ∧
        EndsIn Byte.greater (start + 1) s tag.stop) ∧
    (∀ i s r, bodyEnd? i s = some r →
      Shows (bodyMark r.2) i s r.1 ∧ EndsIn Byte.greater i s (r.1 + if r.2 then 2 else 1)) ∧
    (∀ i name depth s j, contentEnd i name depth s = some j →
      EndsIn Byte.greater i s j ∧ Closes i s j) := by
  have ends_tail {c : UInt8} {i j : Nat} {s : Bytes} (h : EndsIn c (i + 2) (s.drop 1) j) :
      EndsIn c (i + 1) s j :=
    EndsIn.drop (n := 1) h
  have closes_tail {i j : Nat} {s : Bytes} (h : Closes (i + 2) (s.drop 1) j) :
      Closes (i + 1) s j :=
    Closes.drop (n := 1) h
  apply templateEnd.mutual_induct
  case case25 =>
    intro start c t letter tail bodyEnd slashed found ih tag h
    rw [openTag?, if_pos letter] at h
    simp only [found, tail] at h
    cases h
    obtain ⟨shows, ends⟩ := ih _ found
    have within : start + 2 + tail.length = start + 1 + 1 + tail.length := by omega
    rw [within] at shows ends
    exact ⟨shows.drop.cons c, ends.drop.cons c⟩
  case case34 =>
    intro i c t notQuote notBacktick notBrace slash r h
    rw [bodyEnd?, if_neg notQuote, if_neg notBacktick, if_neg notBrace, if_pos slash] at h
    cases h
    rw [slash.1]
    exact ⟨.head Byte.slash i t, i + 1, rfl, .second slash.2 i Byte.slash⟩
  all_goals
    intros
    rename_i h
    first
      | rw [templateEnd] at h
      | rw [blockEnd] at h
      | rw [elementEnd] at h
      | rw [openTag?] at h
      | rw [bodyEnd?] at h
      | rw [contentEnd] at h
    grind [→ templateEnd_bounds, → blockEnd_bounds, → elementEnd_bounds, → openTag?_bounds,
      → bodyEnd?_bounds, → contentEnd_bounds, → quotedEnd_bounds, → declarationEnd_bounds,
      → closeTag_bounds, → length_pos_of_head?, → declarationEnd_endsIn, → closeTag_endsIn,
      EndsIn.head, EndsIn.cons, EndsIn.goOn, Closes.cons, Closes.goOn, Closes.head, Shows.head,
      Shows.cons, Shows.goOn, OpenTag.stop]

theorem templateEnd_endsIn {i j : Nat} {s : Bytes} (h : templateEnd i s = some j) :
    EndsIn Byte.backtick i s j :=
  ends.1 i s j h

theorem blockEnd_endsIn {i depth j : Nat} {s : Bytes} (h : blockEnd i depth s = some j) :
    EndsIn Byte.closeBrace i s j :=
  ends.2.1 i depth s j h

theorem elementEnd_endsIn {start j : Nat} {s : Bytes} (h : elementEnd start s = some j) :
    EndsIn Byte.greater (start + 1) s j :=
  ends.2.2.1 start s j h

theorem openTag?_endsIn {start : Nat} {s : Bytes} {tag : OpenTag}
    (h : openTag? start s = some tag) :
    Shows (bodyMark tag.slashed) (start + 1) s tag.bodyEnd ∧
      EndsIn Byte.greater (start + 1) s tag.stop :=
  ends.2.2.2.1 start s tag h

theorem contentEnd_endsIn {i depth j : Nat} {name s : Bytes}
    (h : contentEnd i name depth s = some j) : EndsIn Byte.greater i s j ∧ Closes i s j :=
  ends.2.2.2.2.2 i name depth s j h

theorem templateEnd_ends {i j : Nat} {s : Bytes} (h : templateEnd i s = some j) : Ends i s j :=
  (templateEnd_endsIn h).ends (by decide)

theorem blockEnd_ends {i depth j : Nat} {s : Bytes} (h : blockEnd i depth s = some j) :
    Ends i s j :=
  (blockEnd_endsIn h).ends (by decide)

theorem openTag?_ends {start : Nat} {s : Bytes} {tag : OpenTag}
    (h : openTag? start s = some tag) :
    Meets (start + 1) s tag.bodyEnd ∧ Ends (start + 1) s tag.stop :=
  ⟨(openTag?_endsIn h).1.meets (bodyMark_ascii _), (openTag?_endsIn h).2.ends (by decide)⟩

theorem contentEnd_ends {i depth j : Nat} {name s : Bytes}
    (h : contentEnd i name depth s = some j) : Ends i s j ∧ Closes i s j :=
  ⟨(contentEnd_endsIn h).1.ends (by decide), (contentEnd_endsIn h).2⟩

theorem Ends.seam {text : Bytes} {i j : Nat} (h : Ends i (text.drop i) j) : Seam text j := by
  obtain ⟨k, rfl, l, c, rfl, stands, ascii⟩ := h
  rw [List.getElem?_drop] at stands
  exact .behind stands ascii

end Scan

end MarkupEdit
