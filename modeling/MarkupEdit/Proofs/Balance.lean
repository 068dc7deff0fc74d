import MarkupEdit.Markup.Units
import MarkupEdit.Proofs.ScanSteps

/-!
Balancing is exact on well-formed markup. One induction over the markup of all kinds gives each
part the equations of the scanners that meet it, for any text behind the part; that every unit
is delimited as written, wherever it stands, follows.
-/

namespace MarkupEdit.Scan

/-- An element is read as one unit in a block, and as balanced tags in content. -/
structure PassesElement (e : Bytes) : Prop where
  head : e.head? = some Byte.less
  whole : ∀ i rest, elementEnd i (e.tail ++ rest) = some (i + e.length)
  content : ∀ i sought depth rest,
    contentEnd i sought depth (e ++ rest) = contentEnd (i + e.length) sought depth rest

/-- What the scanners do with a part of each kind. -/
def Passes : Part → Bytes → Prop
  | .literal, l => PassesLiteral l
  | .template, b =>
      ∀ i rest, templateEnd i (b ++ Byte.backtick :: rest) = some (i + (b.length + 1))
  | .block, b =>
      ∀ i depth rest, blockEnd i depth (b ++ rest) = blockEnd (i + b.length) depth rest
  | .attributes, a => PassesBody a
  | .element, e => PassesElement e
  | .content, c =>
      ∀ i sought depth rest,
        contentEnd i sought depth (c ++ rest) = contentEnd (i + c.length) sought depth rest

theorem blockEnd_element {e : Bytes} (he : PassesElement e) (i depth : Nat) (rest : Bytes) :
    blockEnd i depth (e ++ rest) = blockEnd (i + e.length) depth rest := by
  obtain ⟨t, rfl⟩ : ∃ t, e = Byte.less :: t := List.head?_eq_some_iff.1 he.head
  have read : elementEnd i (t ++ rest) = some (i + (Byte.less :: t).length) := he.whole i rest
  rw [List.cons_append, blockEnd, if_neg (by decide), if_neg (by decide), if_neg (by decide),
    if_neg (by decide), if_pos rfl, read]
  rw [List.length_cons, ← Nat.add_assoc, Nat.add_right_comm]
  simp only [goOn_append]

theorem blockEnd_less {c : UInt8} (hc : Byte.isLetter c = false) (hg : c ≠ Byte.greater)
    (i depth : Nat) (rest : Bytes) :
    blockEnd i depth (Byte.less :: c :: rest) = blockEnd (i + 1) depth (c :: rest) := by
  have noElement : elementEnd i (c :: rest) = none := by
    rw [elementEnd, if_neg hg, openTag?, if_neg (by simp [hc])]
  rw [blockEnd, if_neg (by decide), if_neg (by decide), if_neg (by decide),
    if_neg (by decide), if_pos rfl, noElement]

theorem blockEnd_byte {c : UInt8} (hc : Part.block.isPlain c = true) (i depth : Nat)
    (rest : Bytes) : blockEnd i depth (c :: rest) = blockEnd (i + 1) depth rest := by
  simp only [Part.isPlain, Bool.not_eq_true', Bool.or_eq_false_iff, beq_eq_false_iff_ne] at hc
  obtain ⟨⟨⟨⟨hq, hb⟩, ho⟩, hc⟩, hl⟩ := hc
  rw [blockEnd, if_neg ho, if_neg hc, if_neg (by simp [hq]), if_neg hb, if_neg hl]

theorem contentEnd_byte {c : UInt8} (hc : Part.content.isPlain c = true) (i : Nat)
    (sought : Bytes) (depth : Nat) (rest : Bytes) :
    contentEnd i sought depth (c :: rest) = contentEnd (i + 1) sought depth rest := by
  simp only [Part.isPlain, Bool.not_eq_true', Bool.or_eq_false_iff, beq_eq_false_iff_ne] at hc
  rw [contentEnd, if_neg hc.1, if_neg hc.2]

theorem head_literal {l : Bytes} (h : Markup .literal l) :
    ∃ c t, l = c :: t ∧ (Byte.isQuote c = true ∨ c = Byte.backtick ∨ c = Byte.openBrace) := by
  cases h with
  | quoted hq hb => exact ⟨_, _, rfl, .inl hq⟩
  | backticks hb => exact ⟨_, _, rfl, .inr (.inl rfl)⟩
  | braces hb => exact ⟨_, _, rfl, .inr (.inr rfl)⟩

theorem head?_attributes {a : Bytes} (h : Markup .attributes a) :
    a.head? ≠ some Byte.greater := by
  cases h with
  | attributesNil => simp
  | attributesByte hc hb =>
      rintro ⟨⟩
      exact absurd hc (by decide)
  | attributesLiteral hl hb =>
      obtain ⟨c, t, rfl, hc⟩ := head_literal hl
      rintro ⟨⟩
      exact absurd hc (by decide)

theorem passesBody_literal {l b : Bytes} (hl : PassesLiteral l) (hb : PassesBody b) :
    PassesBody (l ++ b) := by
  intro i rest last
  have lastOfTail : b.getLast? = some Byte.slash → rest.head? ≠ some Byte.greater := by
    intro h
    apply last
    rw [List.getLast?_append, h]
    rfl
  rw [List.append_assoc, hl.body, hb _ _ lastOfTail, List.length_append, Nat.add_assoc]

theorem passesBody_byte {c : UInt8} {b : Bytes} (hc : Part.attributes.isPlain c = true)
    (hb : PassesBody b) (apart : b.head? ≠ some Byte.greater) : PassesBody (c :: b) := by
  intro i rest last
  simp only [Part.isPlain, Bool.not_eq_true', Bool.or_eq_false_iff, beq_eq_false_iff_ne] at hc
  obtain ⟨⟨⟨⟨hq, hk⟩, ho⟩, hl⟩, hg⟩ := hc
  have notEnd : ¬ (c = Byte.slash ∧ (b ++ rest).head? = some Byte.greater) := by
    rintro ⟨rfl, h⟩
    cases b with
    | nil => exact last rfl h
    | cons d b => exact apart h
  have lastOfTail : b.getLast? = some Byte.slash → rest.head? ≠ some Byte.greater := by
    intro h
    apply last
    rw [List.getLast?_cons, h]
    rfl
  rw [List.cons_append, bodyEnd?, if_neg (by simp [hq]), if_neg hk, if_neg ho, if_neg notEnd,
    if_neg hg, if_neg hl, hb _ _ lastOfTail, List.length_cons]
  congr 1
  omega

theorem templateEnd_escape (c : UInt8) (i : Nat) (rest : Bytes) :
    templateEnd i (Byte.backslash :: c :: rest) = templateEnd (i + 2) rest := by
  rw [templateEnd, if_pos rfl, List.drop_one, List.tail_cons]

theorem templateEnd_block {k : Bytes} (hk : Passes .block k) (i : Nat) (rest : Bytes) :
    templateEnd i (Byte.dollar :: Byte.openBrace :: (k ++ Byte.closeBrace :: rest)) =
      templateEnd (i + 2 + (k.length + 1)) rest := by
  have behind : goOn (i + 1) (i + 2 + (k.length + 1))
      (Byte.openBrace :: (k ++ Byte.closeBrace :: rest)) = rest := by
    rw [goOn_cons (by omega), goOn_close]
  rw [templateEnd, if_neg (by decide), if_neg (by decide), if_pos ⟨rfl, List.head?_cons⟩,
    List.drop_one, List.tail_cons, blockEnd_closed hk]
  simp only [behind]

theorem templateEnd_byte {c : UInt8} (hc : c ≠ Byte.backslash) (hq : c ≠ Byte.backtick)
    {rest : Bytes} (hd : c = Byte.dollar → rest.head? ≠ some Byte.openBrace) (i : Nat) :
    templateEnd i (c :: rest) = templateEnd (i + 1) rest := by
  rw [templateEnd, if_neg hc, if_neg hq, if_neg (fun h => hd h.1 h.2)]

theorem templateEnd_backtick (i : Nat) (rest : Bytes) :
    templateEnd i (Byte.backtick :: rest) = some (i + 1) := by
  rw [templateEnd, if_neg (by decide), if_pos rfl]

theorem passes_paired {name a c gap : Bytes} (hn : IsTagName name)
    (hv : isVoidElement name = false) (ha : PassesBody a) (bounded : Bounded a false)
    (hc : Passes .content c) (hg : AllBlank gap) :
    PassesElement (openTagText name a false ++ c ++ closeTagText name gap) where
  head := rfl
  whole i rest := by
    have text : (openTagText name a false ++ c ++ closeTagText name gap).tail ++ rest =
        name ++ (a ++ (tagEnding false ++ (c ++ (closeTagText name gap ++ rest)))) := by
      simp [openTagText]
    rw [text, elementEnd_openTagText hn ha bounded, if_neg (by simp [hv]), hc,
      contentEnd_closeTagText hn.all hg, if_pos ⟨rfl, rfl⟩]
    simp only [List.length_append, Nat.add_assoc]
  content i sought depth rest := by
    rw [List.append_assoc, List.append_assoc, contentEnd_openTagText hn ha bounded, hc,
      contentEnd_closeTagText hn.all hg]
    have width : i + (openTagText name a false ++ c ++ closeTagText name gap).length =
        i + (openTagText name a false).length + c.length + (closeTagText name gap).length := by
      simp only [List.length_append]
      omega
    rw [width]
    by_cases same : name = sought
    · subst same
      simp [hv]
    · simp [same]

theorem passes_single {name a : Bytes} {slashed : Bool} (hn : IsTagName name)
    (hs : (slashed || isVoidElement name) = true) (ha : PassesBody a)
    (bounded : Bounded a slashed) : PassesElement (openTagText name a slashed) where
  head := rfl
  whole i rest := by
    have text : (openTagText name a slashed).tail ++ rest =
        name ++ (a ++ (tagEnding slashed ++ rest)) := by
      simp [openTagText]
    rw [text, elementEnd_openTagText hn ha bounded, if_pos hs]
  content i sought depth rest := by
    rw [contentEnd_openTagText hn ha bounded, if_neg (by simp [hs])]

theorem passes_fragment {c gap : Bytes} (hc : Passes .content c) (hg : AllBlank gap) :
    PassesElement (openTagText [] [] false ++ c ++ closeTagText [] gap) where
  head := rfl
  whole i rest := by
    have text : (openTagText [] [] false ++ c ++ closeTagText [] gap).tail ++ rest =
        Byte.greater :: (c ++ (closeTagText [] gap ++ rest)) := by
      simp [openTagText, tagEnding]
    rw [text, elementEnd_openFragment, hc, contentEnd_closeTagText (by simp) hg,
      if_pos ⟨rfl, rfl⟩]
    simp only [List.length_append, Nat.add_assoc]
    rfl
  content i sought depth rest := by
    rw [List.append_assoc, List.append_assoc, contentEnd_openFragment, hc,
      contentEnd_closeTagText (by simp) hg]
    have width : i + (openTagText [] [] false ++ c ++ closeTagText [] gap).length =
        i + 2 + c.length + (closeTagText [] gap).length := by
      simp only [List.length_append]
      change i + (2 + _ + _) = _
      omega
    rw [width]
    by_cases same : sought = [] <;> simp [same, eq_comm]

theorem passes_markup {part : Part} {b : Bytes} (h : Markup part b) : Passes part b := by
  induction h with
  | quoted hq hb => exact passes_quoted hq hb
  | backticks hb ih => exact passes_backticks ih
  | braces hb ih => exact passes_braces ih
  | templateNil => exact templateEnd_backtick
  | templateEscape c hb ih =>
      intro i rest
      rw [List.cons_append, List.cons_append, templateEnd_escape, ih]
      simp only [List.length_cons, Option.some.injEq]
      omega
  | templateBlock hk hb ihk ih =>
      intro i rest
      simp only [List.cons_append, List.append_assoc]
      rw [templateEnd_block ihk, ih]
      simp only [List.length_cons, List.length_append, Option.some.injEq]
      omega
  | @templateByte c b hc hq hd hb ih =>
      intro i rest
      have apart : c = Byte.dollar →
          (b ++ Byte.backtick :: rest).head? ≠ some Byte.openBrace := by
        intro hdollar
        cases b with
        | nil => exact head?_cons_ne (by decide) rest
        | cons d b => exact hd hdollar
      rw [List.cons_append, templateEnd_byte hc hq apart, ih]
      simp only [List.length_cons, Option.some.injEq]
      omega
  | blockNil => intro i depth rest; rfl
  | contentNil => intro i sought depth rest; rfl
  | blockByte hc hb ih =>
      intro i depth rest
      rw [List.cons_append, blockEnd_byte hc, ih, List.length_cons, Nat.add_assoc,
        Nat.add_comm 1]
  | blockLiteral hl hb ihl ih =>
      intro i depth rest
      rw [List.append_assoc, ihl.block, ih, List.length_append, Nat.add_assoc]
  | blockElement he hb ihe ih =>
      intro i depth rest
      rw [List.append_assoc, blockEnd_element ihe, ih, List.length_append, Nat.add_assoc]
  | blockLess hc hg hb ih =>
      intro i depth rest
      rw [List.cons_append, List.cons_append, blockEnd_less hc hg, ← List.cons_append, ih]
      simp only [List.length_cons]
      congr 1
      omega
  | attributesNil => intro i rest _; rfl
  | attributesByte hc hb ih => exact passesBody_byte hc ih (head?_attributes hb)
  | attributesLiteral hl hb ihl ih => exact passesBody_literal ihl ih
  | contentByte hc hb ih =>
      intro i sought depth rest
      rw [List.cons_append, contentEnd_byte hc, ih, List.length_cons, Nat.add_assoc,
        Nat.add_comm 1]
  | contentComment hk hb ih =>
      intro i sought depth rest
      rw [List.append_assoc, contentEnd_commentText hk, ih, List.length_append, Nat.add_assoc]
  | contentBraces hk hb ihk ih =>
      intro i sought depth rest
      simp only [List.cons_append, List.append_assoc]
      rw [contentEnd, if_pos rfl, blockEnd_closed ihk]
      simp only [goOn_close]
      rw [ih]
      simp only [List.length_cons, List.length_append]
      congr 1
      omega
  | contentElement he hb ihe ih =>
      intro i sought depth rest
      rw [List.append_assoc, ihe.content, ih, List.length_append, Nat.add_assoc]
  | paired hn hv ha bounded hc hg iha ihc => exact passes_paired hn hv iha bounded ihc hg
  | single hn hs ha bounded iha => exact passes_single hn hs iha bounded
  | fragment hc hg ihc => exact passes_fragment ihc hg

theorem openTag?_markup {name a : Bytes} {slashed : Bool} (hn : IsTagName name)
    (ha : Markup .attributes a) (bounded : Bounded a slashed) (i : Nat) (rest : Bytes) :
    openTag? i (name ++ (a ++ (tagEnding slashed ++ rest))) =
      some ⟨i, name, i + 1 + name.length + a.length, slashed⟩ :=
  openTag?_text hn (passes_markup ha) bounded i rest

end MarkupEdit.Scan

namespace MarkupEdit

theorem delimited_append (o : UInt8) (b : Bytes) (c : UInt8) (s : Bytes) :
    (o :: b ++ [c]) ++ s = o :: (b ++ c :: s) := by
  simp

theorem length_delimited (o : UInt8) (b : Bytes) (c : UInt8) :
    (o :: b ++ [c]).length = 1 + (b.length + 1) := by
  simp only [List.cons_append, List.length_cons, List.length_append, List.length_nil]
  omega

theorem delimitedEnd_literal {l : Bytes} (h : Markup .literal l) (p s : Bytes) :
    Units.delimitedEnd (p ++ (l ++ s)) p.length = some (p.length + l.length) := by
  cases h with
  | quoted hq hb =>
      have ended := Scan.quotedEnd_text hq hb (p.length + 1) s
      rw [delimited_append, length_delimited, ← Nat.add_assoc]
      simp only [Units.delimitedEnd, Units.quotedEnd, List.drop_left, hq, if_true, ended]
  | backticks hb =>
      have ended := Scan.passes_markup hb (p.length + 1) s
      rw [delimited_append, length_delimited, ← Nat.add_assoc, ← ended]
      simp only [Units.delimitedEnd, Units.templateEnd, List.drop_left]
      rfl
  | braces hb =>
      have ended := Scan.blockEnd_closed (Scan.passes_markup hb) (p.length + 1) s
      rw [delimited_append, length_delimited, ← Nat.add_assoc, ← ended]
      simp only [Units.delimitedEnd, Units.blockEnd, List.drop_left]
      rfl

theorem openTag?_in_context {name a : Bytes} {slashed : Bool} (hn : IsTagName name)
    (ha : Markup .attributes a) (bounded : Bounded a slashed) (p s : Bytes) :
    Units.openTag? (p ++ (openTagText name a slashed ++ s)) p.length =
      some ⟨p.length, name, p.length + 1 + name.length + a.length, slashed⟩ := by
  rw [Scan.openTagText_append]
  simp only [Units.openTag?, List.drop_left, if_true, Scan.openTag?_markup hn ha bounded]

theorem contentEnd_in_context {name c gap : Bytes} (hn : ∀ b ∈ name, isNameByte b = true)
    (hc : Markup .content c) (hg : AllBlank gap) (p s : Bytes) :
    Units.contentEnd (p ++ (c ++ (closeTagText name gap ++ s))) p.length name =
      some (p.length + c.length + (closeTagText name gap).length) := by
  rw [Units.contentEnd, List.drop_left, Scan.passes_markup hc,
    Scan.contentEnd_closeTagText hn hg, if_pos ⟨rfl, rfl⟩]

/-- Units of well-formed markup end where they are written to end, whatever stands around them:
literals, whole elements inside blocks, opening tags, and the content of an element or of a
fragment, from which the search goes to the closing tag written for it. -/
theorem balance_exact (p s : Bytes) :
    (∀ l, Markup .literal l →
      Units.delimitedEnd (p ++ l ++ s) p.length = some (p ++ l).length) ∧
    (∀ e, Markup .element e →
      Scan.elementEnd p.length ((p ++ e ++ s).drop (p.length + 1)) =
        some (p ++ e).length) ∧
    (∀ name a slashed, IsTagName name → Markup .attributes a → Bounded a slashed →
      (Units.openTag? (p ++ openTagText name a slashed ++ s) p.length).map
          (fun tag => (tag.name, tag.slashed, tag.stop)) =
        some (name, slashed, (p ++ openTagText name a slashed).length)) ∧
    (∀ name a c gap, IsTagName name → Markup .attributes a → Bounded a false →
      Markup .content c → AllBlank gap →
      Units.contentEnd (p ++ openTagText name a false ++ c ++ closeTagText name gap ++ s)
          (p ++ openTagText name a false).length name =
        some (p ++ openTagText name a false ++ c ++ closeTagText name gap).length) ∧
    ∀ c gap, Markup .content c → AllBlank gap →
      Units.contentEnd (p ++ openTagText [] [] false ++ c ++ closeTagText [] gap ++ s)
          (p ++ openTagText [] [] false).length [] =
        some (p ++ openTagText [] [] false ++ c ++ closeTagText [] gap).length := by
  refine ⟨?_, ?_, ?_, ?_, ?_⟩
  · intro l hl
    rw [List.append_assoc, delimitedEnd_literal hl, List.length_append]
  · intro e he
    have passed := Scan.passes_markup he
    obtain ⟨t, rfl⟩ : ∃ t, e = Byte.less :: t := List.head?_eq_some_iff.1 passed.head
    rw [List.append_assoc, ← List.drop_drop, List.drop_left, List.length_append]
    exact passed.whole p.length s
  · intro name a slashed hn ha bounded
    rw [List.append_assoc, openTag?_in_context hn ha bounded, List.length_append]
    simp only [Option.map_some, Scan.stop_openTagText]
  · intro name a c gap hn ha bounded hc hg
    have read := contentEnd_in_context hn.all hc hg (p ++ openTagText name a false) s
    simpa only [List.append_assoc, List.length_append, Nat.add_assoc] using read
  · intro c gap hc hg
    have noName : ∀ b ∈ ([] : Bytes), isNameByte b = true := by simp
    have read := contentEnd_in_context noName hc hg (p ++ openTagText [] [] false) s
    simpa only [List.append_assoc, List.length_append, Nat.add_assoc] using read

def quotedBrace : Bytes := utf8 "\x7b\"\x7d\"\x7d"

theorem quotedBrace_block : Markup .block (utf8 "\"\x7d\"") :=
  .blockLiteral (.quoted (b := utf8 "\x7d") rfl (.ofBytes (by decide))) .blockNil

theorem quotedBrace_literal : Markup .literal quotedBrace := .braces quotedBrace_block

theorem quotedBrace_content : Markup .content quotedBrace :=
  .contentBraces quotedBrace_block .contentNil

theorem balanced_in_broken_text :
    Units.delimitedEnd (utf8 "\x7b'<" ++ quotedBrace ++ utf8 "\"<") 3 = some 8 ∧
    Scan.elementEnd 3
        ((utf8 "\x7b'<" ++ (utf8 "<i>" ++ quotedBrace ++ utf8 "</i >") ++ utf8 "\"<").drop 4) =
      some 16 ∧
    (Units.openTag? (utf8 "\x7b'<" ++ (utf8 "<br " ++ quotedBrace ++ utf8 "/>") ++ utf8 "\"<")
        3).map (fun tag => (tag.name, tag.slashed, tag.stop)) = some (utf8 "br", true, 14) ∧
    Units.contentEnd
        (utf8 "\x7b'<" ++ utf8 "<i>" ++ quotedBrace ++ utf8 "</i >" ++ utf8 "\"<") 6 (utf8 "i") =
      some 16 ∧
    Units.contentEnd
        (utf8 "\x7b'<" ++ utf8 "<>" ++ quotedBrace ++ utf8 "</>" ++ utf8 "\"<") 5 [] = some 13 := by
  have name : IsTagName (utf8 "i") := by decide
  have attributes : Markup .attributes (Byte.space :: (quotedBrace ++ [])) :=
    .attributesByte (by decide) (.attributesLiteral quotedBrace_literal .attributesNil)
  have endOfTag : Bounded (Byte.space :: (quotedBrace ++ [])) true := by
    refine ⟨fun c hc => ?_, nofun⟩
    cases hc
    decide
  have gap : AllBlank (utf8 " ") := by decide
  obtain ⟨literal, element, opening, paired, fragment⟩ :=
    balance_exact (utf8 "\x7b'<") (utf8 "\"<")
  exact ⟨literal _ quotedBrace_literal,
    element _ (.paired name (by decide) .attributesNil (.nil false) quotedBrace_content gap),
    opening (utf8 "br") _ true (by decide) attributes endOfTag,
    paired _ [] _ _ name .attributesNil (.nil false) quotedBrace_content gap,
    fragment _ [] quotedBrace_content (by decide)⟩

end MarkupEdit
