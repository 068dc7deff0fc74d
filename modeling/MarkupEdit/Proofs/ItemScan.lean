import MarkupEdit.Proofs.TagText

/-!
The scan of attributes, item by item. It passes white space and spreads, and finds each other item
where it stands, with its name and its value, if the item ends where it was written to end.
-/

namespace MarkupEdit.Attribute

/-- A run that is cut off at a limit, or stopped by the byte behind it. -/
theorem takeWhile_take {p : UInt8 → Bool} {u s : Bytes} {n : Nat} (hu : ∀ c ∈ u, p c = true)
    (fits : u.length ≤ n) (stop : n = u.length ∨ ∀ c, s.head? = some c → p c = false) :
    ((u ++ s).take n).takeWhile p = u := by
  rw [List.take_append, List.take_of_length_le fits]
  apply Scan.takeWhile_append_stop hu
  intro c hc
  rcases stop with rfl | stop
  · simp at hc
  · apply stop
    cases s with
    | nil => simp at hc
    | cons d s =>
        cases k : n - u.length with
        | zero => simp [k] at hc
        | succ k' => simpa [k] using hc

theorem blankWidth_append {gap s : Bytes} (hg : AllBlank gap) {limit i : Nat}
    (fits : i + gap.length ≤ limit)
    (stop : limit = i + gap.length ∨ ∀ c, s.head? = some c → Byte.isBlank c = false) :
    blankWidth limit i (gap ++ s) = gap.length := by
  rw [blankWidth, takeWhile_take hg (by omega)]
  exact stop.imp_left (by omega)

theorem scan_blanks {gap : Bytes} (hg : AllBlank gap) {limit : Nat} (s : Bytes) {i : Nat}
    (fits : i + gap.length ≤ limit) : scan limit i (gap ++ s) = scan limit (i + gap.length) s := by
  induction gap generalizing i with
  | nil => rfl
  | cons c gap ih =>
      have blank := hg c List.mem_cons_self
      rw [List.length_cons] at fits
      rw [List.cons_append, scan, if_neg (by omega), if_pos (.inl blank),
        ih (fun d hd => hg d (List.mem_cons_of_mem c hd)) (by omega), List.length_cons]
      congr 1
      omega

theorem scan_limit (limit : Nat) (s : Bytes) : scan limit limit s = [] := by
  cases s with
  | nil => rw [scan]
  | cons c t => rw [scan, if_pos (Nat.le_refl limit)]

theorem scan_spread {body : Bytes} (hb : Markup .block body) {limit i : Nat} (hi : i < limit)
    (s : Bytes) :
    scan limit i ((Item.spread body).text ++ s) =
      scan limit (i + (Item.spread body).text.length) s := by
  have notBlank : ¬ (Byte.isBlank Byte.openBrace = true ∨ Byte.openBrace = Byte.slash) := by
    decide
  rw [Item.text, delimited_append, length_delimited, scan, if_neg (by omega),
    if_neg notBlank, if_pos rfl, Scan.blockEnd_closed (Scan.passes_markup hb)]
  simp only [Scan.goOn_close]
  congr 1
  omega

theorem isAttributeNameByte_of_item {c : UInt8} (h : isItemNameByte c = true) :
    isAttributeNameByte c = true := by
  simp only [isItemNameByte, Bool.and_eq_true] at h
  exact h.1.1

/-- The name of an attribute is read whole; the value is what is read behind it. -/
theorem scan_name {name : Bytes} (hn : IsItemName name) {limit i : Nat} {s : Bytes}
    (fits : i + name.length ≤ limit)
    (stop : limit = i + name.length ∨
      ∀ c, s.head? = some c → isAttributeNameByte c = false)
    {value : Option RawValue} (hv : rawValue? limit (i + name.length) s = some value)
    (behind : i < (⟨i, name, value⟩ : Attribute).stop) :
    scan limit i (name ++ s) =
      ⟨i, name, value⟩ ::
        scan limit (⟨i, name, value⟩ : Attribute).stop
          (Scan.goOn i (⟨i, name, value⟩ : Attribute).stop (name ++ s)) := by
  obtain ⟨ne, bytes⟩ := hn
  obtain ⟨c, t, rfl⟩ := List.exists_cons_of_ne_nil ne
  have first := isAttributeNameByte_of_item (bytes c List.mem_cons_self)
  have notBlank : ¬ (Byte.isBlank c = true ∨ c = Byte.slash) := by
    simp only [isAttributeNameByte, Bool.not_eq_true', Bool.or_eq_false_iff,
      beq_eq_false_iff_ne] at first
    rintro (h | h) <;> simp_all
  have notBrace : c ≠ Byte.openBrace := by
    rintro rfl
    exact absurd first (by decide)
  rw [List.length_cons] at fits stop hv
  have run : ((t ++ s).take (limit - (i + 1))).takeWhile isAttributeNameByte = t :=
    takeWhile_take (fun d hd => isAttributeNameByte_of_item (bytes d (List.mem_cons_of_mem c hd)))
      (by omega) (stop.imp_left (by omega))
  rw [← Nat.add_assoc, Nat.add_right_comm] at hv
  rw [List.cons_append, scan, if_neg (by omega), if_neg notBlank, if_neg notBrace, if_pos first]
  simp only [run, List.drop_left, hv, Scan.goOn_cons behind]

theorem rawValue?_flag {gap s : Bytes} (hg : AllBlank gap) {limit i : Nat}
    (fits : i + gap.length ≤ limit)
    (stop : limit = i + gap.length ∨ ∃ c t, s = c :: t ∧ Byte.isBlank c = false ∧
      c ≠ Byte.equals) :
    rawValue? limit i (gap ++ s) = some none := by
  have width : blankWidth limit i (gap ++ s) = gap.length := by
    apply blankWidth_append hg fits
    apply stop.imp_right
    rintro ⟨c, t, rfl, hc, -⟩ d ⟨⟩
    exact hc
  have noEquals : ¬ (i + gap.length < limit ∧ s.head? = some Byte.equals) := by
    rintro ⟨room, equals⟩
    rcases stop with rfl | ⟨c, t, rfl, -, hc⟩
    · omega
    · exact hc (Option.some.inj equals)
  rw [rawValue?]
  simp only [width, List.drop_left]
  rw [if_neg noEquals]

theorem valueEnd_literal {v : Bytes} (literal : Markup .literal v) (limit i : Nat) (s : Bytes) :
    valueEnd limit i (v ++ s) = some (i + v.length) := by
  cases literal with
  | quoted hq hb =>
      rw [delimited_append, length_delimited, valueEnd, if_pos hq, Scan.quotedEnd_text hq hb,
        Nat.add_assoc]
  | backticks hb =>
      rw [delimited_append, length_delimited, valueEnd, if_neg (by decide), if_pos rfl,
        Scan.passes_markup hb, Nat.add_assoc]
  | braces hb =>
      rw [delimited_append, length_delimited, valueEnd, if_neg (by decide),
        if_neg (by decide), if_pos rfl, Scan.blockEnd_closed (Scan.passes_markup hb),
        Nat.add_assoc]

/-- A byte that opens a delimited value. -/
def opensValue (c : UInt8) : Bool :=
  Byte.isQuote c || c == Byte.backtick || c == Byte.openBrace

/-- A value without delimiters runs up to white space or the end of the tag. -/
theorem valueEnd_run {c : UInt8} (bare : opensValue c = false) (limit i : Nat) (t : Bytes) :
    valueEnd limit i (c :: t) =
      some (i + (((c :: t).take (limit - i)).takeWhile (!Byte.isBlank ·)).length) := by
  simp only [opensValue, Bool.or_eq_false_iff, beq_eq_false_iff_ne] at bare
  rw [valueEnd, if_neg (by simp [bare.1.1]), if_neg bare.1.2, if_neg bare.2]

theorem valueEnd_word {v : Bytes} (bare : ∀ c, v.head? = some c → opensValue c = false)
    (ne : v ≠ []) (inWord : ∀ c ∈ v, Byte.isBlank c = false) {limit i : Nat} {s : Bytes}
    (fits : i + v.length ≤ limit)
    (stop : limit = i + v.length ∨ ∀ c, s.head? = some c → Byte.isBlank c = true) :
    valueEnd limit i (v ++ s) = some (i + v.length) := by
  have run : ((v ++ s).take (limit - i)).takeWhile (!Byte.isBlank ·) = v := by
    apply takeWhile_take (fun c hc => by simp [inWord c hc]) (by omega)
    exact stop.imp (by omega) fun h c hc => by simp [h c hc]
  obtain ⟨c, t, rfl⟩ := List.exists_cons_of_ne_nil ne
  rw [List.cons_append, valueEnd_run (bare c rfl), ← List.cons_append, run]

/-- The value behind `=` is what stands up to the end found for it. -/
theorem rawValue?_equals {before after s : Bytes} (hbefore : AllBlank before)
    (hafter : AllBlank after) (ink : ∀ c, s.head? = some c → Byte.isBlank c = false)
    {limit i : Nat} (fits : i + before.length + 1 + after.length ≤ limit) :
    rawValue? limit i (before ++ Byte.equals :: (after ++ s)) =
      (valueEnd limit (i + before.length + 1 + after.length) s).map fun stop =>
        some ⟨i + before.length + 1 + after.length,
          s.take (min stop limit - (i + before.length + 1 + after.length))⟩ := by
  have first : blankWidth limit i (before ++ Byte.equals :: (after ++ s)) = before.length := by
    apply blankWidth_append hbefore (by omega)
    right
    rintro c ⟨⟩
    decide
  have second : blankWidth limit (i + before.length + 1) (after ++ s) = after.length :=
    blankWidth_append hafter fits (.inr ink)
  have tail : (before ++ Byte.equals :: (after ++ s)).drop (before.length + 1) = after ++ s := by
    rw [← List.drop_drop, List.drop_left]
    rfl
  rw [rawValue?]
  simp only [first, List.drop_left, List.head?_cons, tail, second]
  rw [if_pos ⟨by omega, trivial⟩]

theorem rawValue?_value {before after v s : Bytes} (hbefore : AllBlank before)
    (hafter : AllBlank after) (ink : ∀ c, (v ++ s).head? = some c → Byte.isBlank c = false)
    {limit i : Nat} (fits : i + before.length + 1 + after.length + v.length ≤ limit)
    (ended : valueEnd limit (i + before.length + 1 + after.length) (v ++ s) =
      some (i + before.length + 1 + after.length + v.length)) :
    rawValue? limit i (before ++ Byte.equals :: (after ++ (v ++ s))) =
      some (some ⟨i + before.length + 1 + after.length, v⟩) := by
  rw [rawValue?_equals hbefore hafter ink (by omega), ended, Option.map_some,
    Nat.min_eq_left fits, Nat.add_sub_cancel_left, List.take_left]

theorem not_isAttributeNameByte_of_isBlank {c : UInt8} (h : Byte.isBlank c = true) :
    isAttributeNameByte c = false := by
  simp [isAttributeNameByte, h]

/-- A name that no `=` follows is found, and the scan goes on behind it. -/
theorem scan_flag {name : Bytes} (isName : IsItemName name) {limit i : Nat} {s : Bytes}
    (fits : i + name.length ≤ limit)
    (stop : limit = i + name.length ∨ ∀ c, s.head? = some c → isAttributeNameByte c = false)
    (noValue : rawValue? limit (i + name.length) s = some none) :
    scan limit i (name ++ s) = ⟨i, name, none⟩ :: scan limit (i + name.length) s := by
  have behind : i < (⟨i, name, none⟩ : Attribute).stop := by
    have := List.length_pos_iff.2 isName.1
    simp only [Attribute.stop, nameEnd]
    omega
  rw [scan_name isName fits stop noValue behind]
  simp only [Attribute.stop, nameEnd, Scan.goOn_append]

/-- A name with a value is found, and the scan goes on behind the value. -/
theorem scan_valued {name before after v s : Bytes} (isName : IsItemName name)
    (hbefore : AllBlank before) {limit i : Nat}
    (fits : i + (Item.valued name before after v).text.length ≤ limit)
    (value : rawValue? limit (i + name.length)
        (before ++ Byte.equals :: (after ++ (v ++ s))) =
      some (some ⟨i + name.length + before.length + 1 + after.length, v⟩)) :
    scan limit i ((Item.valued name before after v).text ++ s) =
      ⟨i, name, some ⟨i + name.length + before.length + 1 + after.length, v⟩⟩ ::
        scan limit (i + (Item.valued name before after v).text.length) s := by
  have width := Item.length_text_valued name before after v
  have nameStop : limit = i + name.length ∨
      ∀ c, (before ++ Byte.equals :: (after ++ (v ++ s))).head? = some c →
        isAttributeNameByte c = false := by
    right
    intro c hc
    rcases head?_blanks_equals hbefore _ hc with blank | rfl
    · exact not_isAttributeNameByte_of_isBlank blank
    · decide
  have split : (Item.valued name before after v).text ++ s =
      name ++ (before ++ Byte.equals :: (after ++ (v ++ s))) := by
    simp [Item.text]
  have ended : (⟨i, name, some ⟨i + name.length + before.length + 1 + after.length, v⟩⟩ :
      Attribute).stop = i + (Item.valued name before after v).text.length := by
    simp only [Attribute.stop]
    omega
  rw [split, scan_name isName (by omega) nameStop value (by rw [ended]; omega), ended, ← split,
    Scan.goOn_append]

end MarkupEdit.Attribute

namespace MarkupEdit.TagText

/-- The attributes of a tag that stands at offset `i`. -/
def written (tag : TagText) (i : Nat) : List Attribute :=
  itemAttributes (i + 1 + tag.name.length) tag.items

end MarkupEdit.TagText
