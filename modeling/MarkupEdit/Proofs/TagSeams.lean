import MarkupEdit.Markup.Attribute
import MarkupEdit.Proofs.Seams

/-!
The parts of an opening tag in a text of any bytes: its name, its attributes and their values
lie in order between its two ends, and each begins and ends at a seam.
-/

namespace MarkupEdit

theorem takeWhile_stop {p : UInt8 → Bool} {l : Bytes} (h : (l.takeWhile p).length < l.length) :
    ∃ c, l[(l.takeWhile p).length]? = some c ∧ p c = false := by
  induction l with
  | nil => simp at h
  | cons c t ih =>
      cases hc : p c with
      | false => exact ⟨c, by simp [hc], hc⟩
      | true =>
          simp only [List.takeWhile_cons, hc, if_true, List.length_cons] at h ⊢
          simpa using ih (by omega)

theorem takeWhile_inside {p : UInt8 → Bool} {l : Bytes} {n : Nat}
    (inside : n < (l.takeWhile p).length) : ∃ c, l[n]? = some c ∧ p c = true := by
  obtain ⟨r, same⟩ := List.takeWhile_prefix (l := l) p
  refine ⟨(l.takeWhile p)[n], ?_, ?_⟩
  · have front : (l.takeWhile p ++ r)[n]? = (l.takeWhile p)[n]? := List.getElem?_append_left inside
    rw [← List.getElem?_eq_getElem inside, ← front, same]
  · exact List.all_eq_true.1 List.all_takeWhile _ (List.getElem_mem inside)

theorem takeWhile_last {p : UInt8 → Bool} {l : Bytes} {n : Nat}
    (h : (l.takeWhile p).length = n + 1) : ∃ c, l[n]? = some c ∧ p c = true :=
  takeWhile_inside (by omega)

theorem isBlank_ascii {c : UInt8} (h : Byte.isBlank c = true) : c < 0x80 := by
  simp only [Byte.isBlank, Bool.or_eq_true, beq_iff_eq] at h
  obtain (((h | h) | h) | h) | h := h <;> (rw [h]; decide)

/-- Behind a run of ASCII bytes. -/
theorem Seam.run {text : Bytes} {p : UInt8 → Bool} (hp : ∀ c, p c = true → c < 0x80) {i : Nat}
    (hi : Seam text i) (n : Nat) :
    Seam text (i + (((text.drop i).take n).takeWhile p).length) := by
  cases width : (((text.drop i).take n).takeWhile p).length with
  | zero => exact hi
  | succ k =>
      obtain ⟨c, stands, hc⟩ := takeWhile_last width
      rw [List.getElem?_take] at stands
      split at stands
      · rw [List.getElem?_drop] at stands
        exact .behind stands (hp c hc)
      · cases stands

/-- A run ends at a limit, or at a byte that is none of its bytes. -/
theorem run_stop (p : UInt8 → Bool) {text : Bytes} {i limit : Nat} (le : i ≤ limit)
    (inside : limit ≤ text.length) :
    i + (((text.drop i).take (limit - i)).takeWhile p).length = limit ∨
      ∃ c, text[i + (((text.drop i).take (limit - i)).takeWhile p).length]? = some c ∧
        p c = false := by
  have width : ((text.drop i).take (limit - i)).length = limit - i := by
    rw [List.length_take, List.length_drop]
    omega
  have short := (List.takeWhile_prefix (l := (text.drop i).take (limit - i)) p).length_le
  by_cases whole : (((text.drop i).take (limit - i)).takeWhile p).length = limit - i
  · exact .inl (by omega)
  · obtain ⟨c, stands, hc⟩ :=
      takeWhile_stop (p := p) (l := (text.drop i).take (limit - i)) (by omega)
    rw [List.getElem?_take, if_pos (by omega), List.getElem?_drop] at stands
    exact .inr ⟨c, stands, hc⟩

/-- Where a run is stopped by an ASCII byte, or at a limit. -/
theorem Seam.stop {text : Bytes} {p : UInt8 → Bool} (hp : ∀ c, p c = false → c < 0x80)
    {i limit : Nat} (le : i ≤ limit) (hl : Seam text limit) :
    Seam text (i + (((text.drop i).take (limit - i)).takeWhile p).length) := by
  cases run_stop p le hl.le with
  | inl whole => rwa [whole]
  | inr stopped =>
      obtain ⟨c, stands, hc⟩ := stopped
      exact .here stands (hp c hc)

theorem length_blanks_back (text : Bytes) {i stop : Nat} (hs : stop ≤ text.length) :
    ((text.slice i stop).reverse.takeWhile Byte.isBlank).length ≤ stop - i := by
  have short := (List.takeWhile_prefix (l := (text.slice i stop).reverse) Byte.isBlank).length_le
  rwa [List.length_reverse, Bytes.length_slice hs] at short

theorem getElem?_reverse_slice {text : Bytes} {i stop k : Nat} (hs : stop ≤ text.length)
    (hk : k < stop - i) : (text.slice i stop).reverse[k]? = text[stop - 1 - k]? := by
  have inside : k < (text.slice i stop).length := by rwa [Bytes.length_slice hs]
  rw [List.getElem?_reverse inside, Bytes.length_slice hs, Bytes.slice, List.getElem?_drop,
    List.getElem?_take, if_pos (by omega)]
  congr 1
  omega

theorem blank_back {text : Bytes} {i stop k : Nat} (hs : stop ≤ text.length)
    (hk : stop - ((text.slice i stop).reverse.takeWhile Byte.isBlank).length ≤ k)
    (before : k < stop) : ∃ c, text[k]? = some c ∧ Byte.isBlank c = true := by
  have short := length_blanks_back text (i := i) hs
  obtain ⟨c, stands, blank⟩ := takeWhile_inside (n := stop - 1 - k)
    (p := Byte.isBlank) (l := (text.slice i stop).reverse) (by omega)
  rw [getElem?_reverse_slice hs (by omega)] at stands
  rw [show stop - 1 - (stop - 1 - k) = k by omega] at stands
  exact ⟨c, stands, blank⟩

/-- White space in front of an offset goes back to `i`, or to a byte that is none. -/
theorem back_stop {text : Bytes} {i stop : Nat} (le : i ≤ stop) (hs : stop ≤ text.length) :
    stop - ((text.slice i stop).reverse.takeWhile Byte.isBlank).length = i ∨
      ∃ k c, stop - ((text.slice i stop).reverse.takeWhile Byte.isBlank).length = k + 1 ∧
        text[k]? = some c ∧ Byte.isBlank c = false := by
  have short := length_blanks_back text (i := i) hs
  have width : (text.slice i stop).reverse.length = stop - i := by
    rw [List.length_reverse, Bytes.length_slice hs]
  by_cases whole : ((text.slice i stop).reverse.takeWhile Byte.isBlank).length = stop - i
  · exact .inl (by omega)
  · obtain ⟨c, stands, ink⟩ := takeWhile_stop (p := Byte.isBlank)
      (l := (text.slice i stop).reverse) (by omega)
    rw [getElem?_reverse_slice hs (by omega)] at stands
    exact .inr ⟨_, c, by omega, stands, ink⟩

/-- Where the white space in front of an offset begins. -/
theorem Seam.back {text : Bytes} {i stop : Nat} (hs : Seam text stop) :
    Seam text (stop - ((text.slice i stop).reverse.takeWhile Byte.isBlank).length) := by
  cases width : ((text.slice i stop).reverse.takeWhile Byte.isBlank).length with
  | zero => exact hs
  | succ k =>
      obtain ⟨c, stands, blank⟩ := takeWhile_last width
      have short := length_blanks_back text (i := i) hs.le
      rw [getElem?_reverse_slice hs.le (by omega)] at stands
      rw [show stop - (k + 1) = stop - 1 - k by omega]
      exact .here stands (isBlank_ascii blank)

theorem goOn_drop (text : Bytes) {i j : Nat} (le : i ≤ j) :
    Scan.goOn i j (text.drop i) = text.drop j := by
  rw [Scan.goOn, List.drop_drop, Nat.add_sub_cancel' le]

theorem drop_eq_cons {text : Bytes} {i : Nat} {c : UInt8} {t : Bytes} (h : text.drop i = c :: t) :
    text[i]? = some c ∧ text.drop (i + 1) = t ∧ i < text.length := by
  have stands : text[i]? = some c := by
    rw [← List.head?_drop, h, List.head?_cons]
  refine ⟨stands, ?_, (List.getElem?_eq_some_iff.1 stands).1⟩
  rw [← List.drop_drop, h, List.drop_one, List.tail_cons]

/-- The ends of a tag and of its name, and the place of its last mark, lie in a text in order. -/
structure OpenTag.Sound (text : Bytes) (tag : OpenTag) : Prop where
  less : text[tag.start]? = some Byte.less
  name : text.slice (tag.start + 1) tag.nameEnd = tag.name
  nameEnd : Seam text tag.nameEnd
  body : tag.nameEnd ≤ tag.bodyEnd
  bodyEnd : Seam text tag.bodyEnd
  inside : tag.bodyEnd < text.length
  stop : Seam text tag.stop

theorem isLetter_ascii {c : UInt8} (h : Byte.isLetter c = true) : c < 0x80 := by
  simp only [Byte.isLetter, Byte.isUpper, Byte.isLower, Bool.or_eq_true, Bool.and_eq_true,
    decide_eq_true_eq, UInt8.le_iff_toNat_le] at h
  rw [UInt8.lt_iff_toNat_lt]
  change _ < 128
  simp only [UInt8.reduceToNat] at h
  omega

theorem isNameByte_ascii {c : UInt8} (h : isNameByte c = true) : c < 0x80 := by
  simp only [isNameByte, Byte.isAlphanumeric, Bool.or_eq_true, beq_iff_eq] at h
  obtain ((((((h | h) | h) | h) | h) | h) | h) := h
  · exact isLetter_ascii h
  · simp only [Byte.isDigit, Bool.and_eq_true, decide_eq_true_eq, UInt8.le_iff_toNat_le] at h
    rw [UInt8.lt_iff_toNat_lt]
    change _ < 128
    simp only [UInt8.reduceToNat] at h
    omega
  all_goals rw [h]; decide

theorem sound_openTag? {text : Bytes} {i : Nat} {tag : OpenTag}
    (less : text[i]? = some Byte.less) (h : Scan.openTag? i (text.drop (i + 1)) = some tag) :
    tag.Sound text := by
  obtain ⟨c, t, split, letter, start, name, body⟩ := Scan.openTag?_cases h
  obtain ⟨meets, ends⟩ := Scan.openTag?_ends h
  have bounds := Scan.bodyEnd?_bounds body
  obtain ⟨first, tail, inText⟩ := drop_eq_cons split
  have run : text.slice (i + 1) tag.nameEnd = tag.name := by
    rw [Bytes.slice, OpenTag.nameEnd, start, List.drop_take, Nat.add_sub_cancel_left, split, name,
      List.length_cons, List.take_succ_cons]
    exact congrArg (c :: ·) (List.prefix_iff_eq_take.1 (List.takeWhile_prefix isNameByte)).symm
  have nameEnd : Seam text tag.nameEnd := by
    have behind := (Seam.behind first (isLetter_ascii letter)).run
      (fun c hc => isNameByte_ascii hc) t.length
    rw [tail, List.take_length] at behind
    rw [OpenTag.nameEnd, start, name, List.length_cons, ← Nat.add_assoc, Nat.add_right_comm]
    exact behind
  obtain ⟨k, d, bodyEnd, stands, ascii⟩ := meets
  rw [List.getElem?_drop, ← bodyEnd] at stands
  exact {
    less := by rw [start]; exact less
    name := by rw [start]; exact run
    nameEnd
    body := by
      rw [OpenTag.nameEnd, start]
      exact bounds.1
    bodyEnd := .here stands ascii
    inside := (List.getElem?_eq_some_iff.1 stands).1
    stop := ends.seam }

theorem OpenTag.Sound.trimmedEnd {text : Bytes} {tag : OpenTag} (sound : tag.Sound text) :
    tag.nameEnd ≤ tag.trimmedEnd text ∧ Seam text (tag.trimmedEnd text) := by
  have short := length_blanks_back text (i := tag.nameEnd) (Nat.le_of_lt sound.inside)
  have body := sound.body
  refine ⟨?_, sound.bodyEnd.back⟩
  rw [OpenTag.trimmedEnd]
  omega

/-- A value lies behind an offset and does not reach beyond a limit. -/
structure RawValue.Sound (text : Bytes) (least limit : Nat) (v : RawValue) : Prop where
  first : least < v.start
  start : Seam text v.start
  stop : Seam text (v.start + v.text.length)
  within : v.start + v.text.length ≤ limit
  text : text.slice v.start (v.start + v.text.length) = v.text

structure Attribute.Sound (text : Bytes) (least limit : Nat) (a : Attribute) : Prop where
  first : least ≤ a.start
  start : Seam text a.start
  named : a.start < a.nameEnd
  name : text.slice a.start a.nameEnd = a.name
  nameEnd : Seam text a.nameEnd
  within : a.nameEnd ≤ limit
  value : ∀ v, a.value = some v → v.Sound text a.nameEnd limit

namespace Attribute

theorem Sound.stop {text : Bytes} {least limit : Nat} {a : Attribute}
    (sound : a.Sound text least limit) :
    a.nameEnd ≤ a.stop ∧ a.stop ≤ limit ∧ Seam text a.stop := by
  rw [Attribute.stop]
  cases h : a.value with
  | none => exact ⟨Nat.le_refl _, sound.within, sound.nameEnd⟩
  | some v =>
      have value := sound.value v h
      exact ⟨Nat.le_trans (Nat.le_of_lt value.first) (Nat.le_add_right _ _), value.within,
        value.stop⟩

theorem Sound.weaken {text : Bytes} {least less limit : Nat} {a : Attribute}
    (sound : a.Sound text least limit) (le : less ≤ least) : a.Sound text less limit :=
  { sound with first := Nat.le_trans le sound.first }

theorem ascii_of_not_nameByte {c : UInt8} (h : isAttributeNameByte c = false) : c < 0x80 := by
  simp only [isAttributeNameByte, Bool.not_eq_false', Bool.or_eq_true, beq_iff_eq] at h
  obtain (((((h | h) | h) | h) | h) | h) := h
  · exact isBlank_ascii h
  · rw [h]; decide
  · rw [h]; decide
  · rw [h]; decide
  · exact Scan.isQuote_ascii h
  · rw [h]; decide

variable {text : Bytes} {limit : Nat}

theorem seam_min (hl : Seam text limit) {j : Nat} (hj : Seam text j) :
    Seam text (min j limit) := by
  by_cases le : j ≤ limit
  · rwa [Nat.min_eq_left le]
  · rwa [Nat.min_eq_right (by omega)]

theorem blankWidth_le {i : Nat} (le : i ≤ limit) (s : Bytes) :
    i + blankWidth limit i s ≤ limit := by
  have short := (List.takeWhile_prefix (l := s.take (limit - i)) Byte.isBlank).length_le
  rw [List.length_take] at short
  rw [blankWidth]
  omega

/-- A value stands behind a `=`, past white space. -/
theorem rawValue?_cases {i : Nat} {v : RawValue}
    (h : rawValue? limit i (text.drop i) = some (some v)) :
    ∃ gap start stop, i + gap < limit ∧ text[i + gap]? = some Byte.equals ∧
      start = i + gap + 1 + blankWidth limit (i + gap + 1) (text.drop (i + gap + 1)) ∧
      valueEnd limit start (text.drop start) = some stop ∧
      v = ⟨start, (text.drop start).take (min stop limit - start)⟩ := by
  simp only [rawValue?] at h
  split at h
  next equals =>
    obtain ⟨room, equals⟩ := equals
    rw [List.drop_drop, List.head?_drop] at equals
    obtain ⟨stop, ended, whole⟩ := Option.map_eq_some_iff.1 h
    simp only [List.drop_drop, ← Nat.add_assoc] at ended whole
    cases whole
    exact ⟨_, _, stop, room, equals, rfl, ended, rfl⟩
  next => cases h

theorem length_value (inside : limit < text.length) {start stop : Nat} (le : start ≤ stop)
    (upTo : start ≤ limit) :
    start + ((text.drop start).take (min stop limit - start)).length = min stop limit := by
  rw [List.length_take, List.length_drop]
  omega

section

variable (inside : limit < text.length) (hl : Seam text limit)

include inside hl

theorem valueEnd_seam {i j : Nat} (le : i ≤ limit)
    (h : valueEnd limit i (text.drop i) = some j) : i ≤ j ∧ Seam text (min j limit) := by
  rw [valueEnd.eq_def] at h
  split at h
  next empty =>
    have := List.drop_eq_nil_iff.1 empty
    omega
  next c t here =>
    obtain ⟨stands, tail, -⟩ := drop_eq_cons here
    split at h
    next quote =>
      have bounds := Scan.quotedEnd_bounds h
      have ends := Scan.quotedEnd_ends (Scan.isQuote_ascii quote) h
      rw [← tail] at ends
      exact ⟨by omega, seam_min hl ends.seam⟩
    next =>
      split at h
      next =>
        have bounds := Scan.templateEnd_bounds h
        have ends := Scan.templateEnd_ends h
        rw [← tail] at ends
        exact ⟨by omega, seam_min hl ends.seam⟩
      next =>
        split at h
        next =>
          have bounds := Scan.blockEnd_bounds h
          have ends := Scan.blockEnd_ends h
          rw [← tail] at ends
          exact ⟨by omega, seam_min hl ends.seam⟩
        next =>
          cases h
          have stop : Seam text (i + (((text.drop i).take (limit - i)).takeWhile
              (!Byte.isBlank ·)).length) :=
            hl.stop (fun c hc => isBlank_ascii (by simpa using hc)) le
          rw [here] at stop
          exact ⟨Nat.le_add_right _ _, seam_min hl stop⟩

theorem rawValue?_sound {i : Nat} {value : Option RawValue}
    (h : rawValue? limit i (text.drop i) = some value) {v : RawValue} (hv : value = some v) :
    v.Sound text i limit := by
  subst hv
  obtain ⟨gap, start, stop, room, equals, rfl, ended, rfl⟩ := rawValue?_cases h
  have behind := Seam.behind equals (by decide)
  have seam := behind.run (fun c hc => isBlank_ascii hc) (limit - (i + gap + 1))
  have upTo := blankWidth_le (show i + gap + 1 ≤ limit by omega) (text.drop (i + gap + 1))
  obtain ⟨least, stopSeam⟩ := valueEnd_seam inside hl upTo ended
  have reached := length_value inside least upTo
  exact {
    first := by dsimp only; omega
    start := seam
    stop := by rw [reached]; exact stopSeam
    within := by rw [reached]; exact Nat.min_le_right _ _
    text := by rw [reached, Bytes.slice, List.drop_take] }

theorem scan_sound {i : Nat} (hi : Seam text i) :
    ∀ a ∈ scan limit i (text.drop i), a.Sound text i limit := by
  generalize rest : text.drop i = s
  fun_induction scan limit i s with
  | case1 => simp
  | case2 => simp
  | case3 i c t before blank ih =>
      obtain ⟨stands, tail, -⟩ := drop_eq_cons rest
      have ascii : c < 0x80 := by
        cases blank with
        | inl blank => exact isBlank_ascii blank
        | inr slash => rw [slash]; decide
      intro a mem
      exact (ih (.behind stands ascii) tail a mem).weaken (Nat.le_succ i)
  | case4 => simp
  | case5 i t before j ended _ ih =>
      obtain ⟨stands, tail, -⟩ := drop_eq_cons rest
      have bounds := Scan.blockEnd_bounds ended
      have ends := Scan.blockEnd_ends ended
      rw [← tail] at ends
      intro a mem
      refine (ih ends.seam ?_ a mem).weaken (by omega)
      rw [← tail, goOn_drop text (by omega)]
  | case6 => simp
  | case7 i c t before _ _ name tail value found a ih =>
      obtain ⟨stands, behind, -⟩ := drop_eq_cons rest
      have short : tail.length ≤ (t.take (limit - (i + 1))).length :=
        (List.takeWhile_prefix isAttributeNameByte).length_le
      rw [List.length_take] at short
      have nameEnd : Seam text (i + 1 + tail.length) := by
        have stop : Seam text (i + 1 + (((text.drop (i + 1)).take (limit - (i + 1))).takeWhile
            isAttributeNameByte).length) :=
          hl.stop (fun c hc => ascii_of_not_nameByte hc) (by omega)
        rwa [behind] at stop
      have whole : a.nameEnd = i + 1 + tail.length := by
        simp only [a, Attribute.nameEnd, List.length_cons]
        omega
      have first : a.start = i := rfl
      have within : i + 1 + tail.length ≤ limit := by omega
      rw [← behind, List.drop_drop] at found
      have sound : a.Sound text i limit := {
        first := Nat.le_refl i
        start := hi
        named := by rw [whole]; omega
        name := by
          have pre : tail <+: t := (List.takeWhile_prefix _).trans (List.take_prefix _ _)
          rw [whole, first, Bytes.slice, List.drop_take, show i + 1 + tail.length - i =
            tail.length + 1 by omega, rest, List.take_succ_cons]
          exact congrArg (c :: ·) (List.prefix_iff_eq_take.1 pre).symm
        nameEnd := by rw [whole]; exact nameEnd
        within := by rw [whole]; exact within
        value := by
          rw [whole]
          exact fun v hv => rawValue?_sound inside hl found hv }
      obtain ⟨stop, -, seam⟩ := sound.stop
      have later : i + 1 ≤ a.stop := by omega
      intro b mem
      cases List.mem_cons.1 mem with
      | inl same => rw [same]; exact sound
      | inr mem =>
          refine (ih seam ?_ b mem).weaken (by omega)
          rw [← behind, goOn_drop text later]
  | case8 i c t before _ _ stray ih =>
      obtain ⟨stands, tail, -⟩ := drop_eq_cons rest
      intro a mem
      have ascii := ascii_of_not_nameByte (by simpa using stray)
      exact (ih (.behind stands ascii) tail a mem).weaken (Nat.le_succ i)

end

end Attribute

/-- The attributes of a tag lie between its name and the mark that ends it. -/
theorem OpenTag.Sound.attribute {text : Bytes} {tag : OpenTag} (sound : tag.Sound text)
    {a : Attribute} (mem : a ∈ tag.attributes text) : a.Sound text tag.nameEnd tag.bodyEnd := by
  have after : tag.start ≤ tag.nameEnd := by
    rw [OpenTag.nameEnd]
    omega
  rw [OpenTag.attributes, OpenTag.attributesIn, List.drop_drop, Nat.add_sub_cancel' after] at mem
  exact Attribute.scan_sound sound.inside sound.bodyEnd sound.nameEnd a mem

end MarkupEdit
