import Mathlib.Logic.Function.Iterate
import MarkupEdit.Proofs.ClassesWrittenBack
import MarkupEdit.Proofs.LiteralForms

/-!
The text of a literal, written once more. Reading keeps the text between the delimiters with its
escapes, writing escapes again. So a text is read as it was only if there is nothing in it to be
escaped; a text in braces with a backslash grows with each round.
-/

namespace MarkupEdit

namespace Encoding

theorem opensEscape_of_quotedText {mark : UInt8} {w : Bytes} (text : QuotedText mark w) :
    opensEscape w = false := by
  induction text with
  | nil => rfl
  | escape c hb ih => rw [opensEscape_pair, ih]
  | byte hc hq hb ih => rw [opensEscape_cons hc, ih]

/-- The closing quote stands in the text of a literal behind a backslash only. -/
theorem not_mem_of_quotedText {mark : UInt8} {w : Bytes} (text : QuotedText mark w)
    (plain : Byte.backslash ∉ w) : mark ∉ w := by
  induction text with
  | nil => exact List.not_mem_nil
  | escape c hb ih => exact absurd List.mem_cons_self plain
  | byte hc hq hb ih =>
      rw [List.mem_cons, not_or]
      exact ⟨Ne.symm hq, ih fun mem => plain (List.mem_cons_of_mem _ mem)⟩

/-- What is known of a text that is read as the text of a literal. -/
def Holds : Encoding → Bytes → Prop
  | doubleQuoted, text | bracedDouble, text => QuotedText Byte.doubleQuote text
  | singleQuoted, text | bracedSingle, text => QuotedText Byte.singleQuote text
  | unquoted, _ => True
  | bracedTemplate, text =>
    ¬ blockOpening <:+: text ∧ (Byte.backslash ∉ text → Byte.backtick ∉ text)

theorem holds_of_parse {raw text : Bytes} {encoding : Encoding}
    (read : parse raw = some (encoding, text)) : encoding.Holds text := by
  cases isLiteral_of_parse read with
  | doubleQuoted ht => exact ht
  | singleQuoted ht => exact ht
  | unquoted => trivial
  | bracedDouble ht => exact ht
  | bracedSingle ht => exact ht
  | bracedTemplate ht flat => exact ⟨flat, not_mem_of_quotedText ht⟩

theorem length_escape (mark : UInt8) (text : Bytes) :
    text.length + text.count Byte.backslash ≤ (escape mark text).length := by
  induction text with
  | nil => exact Nat.le_refl 0
  | cons c t ih =>
      rw [escape] at ih ⊢
      rw [List.flatMap_cons, List.length_append, List.length_cons, List.count_cons]
      by_cases escaped : c = mark ∨ c = Byte.backslash
      · rw [if_pos escaped]
        split
        · simp only [List.length_cons, List.length_nil]
          omega
        · simp only [List.length_cons, List.length_nil]
          omega
      · have other : ¬ (c == Byte.backslash) = true :=
          fun same => escaped (.inr (by simpa using same))
        rw [if_neg escaped, if_neg other, List.length_singleton]
        omega

theorem length_escapeTemplate (text : Bytes) :
    text.length + text.count Byte.backslash ≤ (escapeTemplate text).length := by
  induction text with
  | nil => exact Nat.le_refl 0
  | cons c t ih =>
      rw [escapeTemplate_cons, List.length_cons, List.count_cons]
      by_cases escaped : c = Byte.backtick ∨ c = Byte.backslash ∨
          (c = Byte.dollar ∧ (escapeTemplate t).head? = some Byte.openBrace)
      · rw [if_pos escaped, List.length_cons, List.length_cons]
        split
        · omega
        · omega
      · have other : ¬ (c == Byte.backslash) = true :=
          fun same => escaped (.inr (.inl (by simpa using same)))
        rw [if_neg escaped, if_neg other, List.length_cons]
        omega

theorem refer_eq_self_iff {mark : UInt8} {reference : String} (refers : Refers mark reference)
    (text : Bytes) : refer mark reference text = text ↔ mark ∉ text := by
  constructor
  · intro same
    rw [← same]
    exact not_mem_refer refers text
  · intro absent
    refine Harmless.flatMap_self fun c mem => if_neg ?_
    rintro rfl
    exact absent mem

theorem escape_eq_self_iff {mark : UInt8} {text : Bytes} (quotedText : QuotedText mark text) :
    escape mark text = text ↔ Byte.backslash ∉ text := by
  constructor
  · intro same mem
    have longer := length_escape mark text
    have pos := List.count_pos_iff.2 mem
    rw [same] at longer
    omega
  · intro plain
    have absent := not_mem_of_quotedText quotedText plain
    refine Harmless.flatMap_self fun c mem => if_neg ?_
    rintro (rfl | rfl)
    · exact absent mem
    · exact plain mem

theorem escapeTemplate_eq_self_iff {text : Bytes} (holds : bracedTemplate.Holds text) :
    escapeTemplate text = text ↔ Byte.backslash ∉ text := by
  constructor
  · intro same mem
    have longer := length_escapeTemplate text
    have pos := List.count_pos_iff.2 mem
    rw [same] at longer
    omega
  · intro plain
    obtain ⟨flat, behind⟩ := holds
    have absent := behind plain
    clear behind
    induction text with
    | nil => rfl
    | cons c t ih =>
        rw [List.mem_cons, not_or] at plain absent
        rw [blockOpening_infix_cons, not_or] at flat
        have same := ih plain.2 flat.2 absent.2
        rw [escapeTemplate_cons, same, if_neg]
        rintro (rfl | rfl | opens)
        · exact absent.1 rfl
        · exact plain.1 rfl
        · exact flat.1 opens

/-- The texts that are read as they are when they were written once more. -/
def Keeps : Encoding → Bytes → Prop
  | doubleQuoted, text | singleQuoted, text =>
    Byte.doubleQuote ∉ text ∨ Byte.singleQuote ∉ text
  | unquoted, text =>
    (text ≠ [] ∧ text.all isPlainByte = true) ∨ Byte.doubleQuote ∉ text ∨ Byte.singleQuote ∉ text
  | bracedDouble, text | bracedSingle, text | bracedTemplate, text => Byte.backslash ∉ text

instance : (encoding : Encoding) → (text : Bytes) → Decidable (encoding.Keeps text)
  | doubleQuoted, text | singleQuoted, text =>
    inferInstanceAs (Decidable (Byte.doubleQuote ∉ text ∨ Byte.singleQuote ∉ text))
  | unquoted, text =>
    inferInstanceAs (Decidable ((text ≠ [] ∧ text.all isPlainByte = true) ∨
      Byte.doubleQuote ∉ text ∨ Byte.singleQuote ∉ text))
  | bracedDouble, text | bracedSingle, text | bracedTemplate, text =>
    inferInstanceAs (Decidable (Byte.backslash ∉ text))

/-- What is read from a written text. It is the text itself in the given case only, and then it is
written the same way once more. -/
structure ReadAgain (raw text : Bytes) (kept : Prop) (encoding : Encoding) (read : Bytes) :
    Prop where
  parsed : parse raw = some (encoding, read)
  same : read = text ↔ kept
  again : read = text → encoding.format text = raw

theorem quoted_format {mark : UInt8} (isQuote : Byte.isQuote mark = true) {text : Bytes}
    (absent : mark ∉ text) : (quoted mark).format text = quote mark text := by
  obtain rfl | rfl := eq_of_isQuote isQuote
  · change formatQuoted _ _ _ text = _
    rw [formatQuoted, if_neg (by simp [absent]), (refer_eq_self_iff .double text).2 absent]
  · change formatQuoted _ _ _ text = _
    rw [formatQuoted, if_neg (by simp [absent]), (refer_eq_self_iff .single text).2 absent]

theorem readAgain_quote {mark : UInt8} (isQuote : Byte.isQuote mark = true) {written text : Bytes}
    (absent : mark ∉ written) (even : opensEscape written = false) {kept : Prop}
    (same : written = text ↔ kept) :
    ReadAgain (quote mark written) text kept (quoted mark) written where
  parsed := by
    rw [parse_quoted isQuote absent, even]
    rfl
  same := same
  again := by
    rintro rfl
    exact quoted_format isQuote absent

theorem readAgain_formatQuoted {mark other : UInt8} {reference : String}
    (refers : Refers mark reference) (isQuote : Byte.isQuote other = true) {text : Bytes}
    (even : opensEscape text = false) :
    ∃ encoding read, ReadAgain (formatQuoted mark other reference text) text
      (mark ∉ text ∨ other ∉ text) encoding read := by
  rw [formatQuoted]
  split
  next switched =>
    have absent : other ∉ text := by simpa using switched.2
    exact ⟨_, _, readAgain_quote isQuote absent even (iff_of_true rfl (.inr absent))⟩
  next kept =>
    refine ⟨_, _, readAgain_quote refers.isQuote (not_mem_refer refers text)
      ((opensEscape_refer refers text).trans even) ?_⟩
    rw [refer_eq_self_iff refers]
    refine ⟨.inl, fun one => one.elim id fun absent mem => kept ?_⟩
    simpa [mem] using absent

theorem readAgain_braced {mark : UInt8} (isQuote : Byte.isQuote mark = true) {text : Bytes}
    (quotedText : QuotedText mark text)
    (written : (braced mark).format text = brace (quote mark (escape mark text))) :
    ReadAgain (brace (quote mark (escape mark text))) text (Byte.backslash ∉ text) (braced mark)
      (escape mark text) where
  parsed := by
    rw [parse_brace (Bytes.ink_of_isQuote isQuote), content?_escape isQuote]
    rfl
  same := escape_eq_self_iff quotedText
  again _ := written

/-- A text without delimiters stays as it is while it can, and gets quotes where it cannot. -/
theorem format_unquoted {text : Bytes} (preserved : unquoted.Preserves text) :
    (text ≠ [] ∧ text.all isPlainByte = true) ∧ unquoted.format text = text ∨
      ¬ (text ≠ [] ∧ text.all isPlainByte = true) ∧ opensEscape text = false ∧
        unquoted.format text = formatDouble text := by
  have form : text.isEmpty = false ∧ text.all isPlainByte = true ↔
      text ≠ [] ∧ text.all isPlainByte = true := by simp
  by_cases plain : text ≠ [] ∧ text.all isPlainByte = true
  · exact .inl ⟨plain, if_pos (form.2 plain)⟩
  · have even := (opensEscape_eq_false_iff text).2 (preserved.resolve_left plain)
    exact .inr ⟨plain, even, if_neg (mt form.1 plain)⟩

/-- The text of a literal that an encoding preserves is read again exactly if the encoding keeps
it. -/
theorem format_readAgain {encoding : Encoding} {text : Bytes} (holds : encoding.Holds text)
    (preserved : encoding.Preserves text) :
    ∃ used read, ReadAgain (encoding.format text) text (encoding.Keeps text) used read := by
  cases encoding with
  | doubleQuoted => exact readAgain_formatQuoted .double rfl (opensEscape_of_quotedText holds)
  | singleQuoted =>
      have isQuote : Byte.isQuote Byte.doubleQuote = true := rfl
      obtain ⟨used, read, written⟩ :=
        readAgain_formatQuoted .single isQuote (opensEscape_of_quotedText holds)
      exact ⟨used, read, { written with same := written.same.trans or_comm }⟩
  | unquoted =>
      rcases format_unquoted preserved with ⟨plain, stays⟩ | ⟨notPlain, even, quoted⟩
      · rw [stays]
        exact ⟨unquoted, text, parse_plain plain.1 plain.2, iff_of_true rfl (.inl plain),
          fun _ => stays⟩
      · have isQuote : Byte.isQuote Byte.singleQuote = true := rfl
        obtain ⟨used, read, written⟩ := readAgain_formatQuoted .double isQuote even
        rw [quoted]
        exact ⟨used, read, { written with
          same := written.same.trans (iff_comm.1 (or_iff_right notPlain)) }⟩
  | bracedDouble => exact ⟨_, _, readAgain_braced rfl holds rfl⟩
  | bracedSingle => exact ⟨_, _, readAgain_braced rfl holds rfl⟩
  | bracedTemplate =>
      refine ⟨bracedTemplate, escapeTemplate text, ?_, escapeTemplate_eq_self_iff holds,
        fun _ => rfl⟩
      have flat : text.hasSubtext blockOpening = false := preserved
      change parse (brace (quote Byte.backtick (escapeTemplate text))) = _
      rw [parse_brace Bytes.ink_backtick, content?_escapeTemplate, flat]
      rfl

theorem literal_formatQuoted {mark other : UInt8} {reference : String}
    (refers : Refers mark reference) (isQuote : Byte.isQuote other = true) {text : Bytes}
    (even : opensEscape text = false) :
    Markup .literal (formatQuoted mark other reference text) := by
  rw [formatQuoted]
  split
  next switched =>
    have absent : other ∉ text := by simpa using switched.2
    exact .quoted isQuote (quotedText_of_opensEscape absent even)
  next =>
    exact .quoted refers.isQuote (quotedText_of_opensEscape (not_mem_refer refers text)
      ((opensEscape_refer refers text).trans even))

/-- A text that is written once more gets delimiters, or stays as it is. -/
theorem format_literal {encoding : Encoding} {text : Bytes} (holds : encoding.Holds text)
    (preserved : encoding.Preserves text) :
    Markup .literal (encoding.format text) ∨
      encoding = unquoted ∧ encoding.format text = text := by
  cases encoding with
  | doubleQuoted => exact .inl (literal_formatQuoted .double rfl (opensEscape_of_quotedText holds))
  | singleQuoted => exact .inl (literal_formatQuoted .single rfl (opensEscape_of_quotedText holds))
  | unquoted =>
      rcases format_unquoted preserved with ⟨-, stays⟩ | ⟨-, even, quoted⟩
      · exact .inr ⟨rfl, stays⟩
      · rw [quoted]
        exact .inl (literal_formatQuoted .double rfl even)
  | bracedDouble => exact .inl (literal_brace (.quoted rfl (quotedText_escape _ text)))
  | bracedSingle => exact .inl (literal_brace (.quoted rfl (quotedText_escape _ text)))
  | bracedTemplate => exact .inl (literal_brace (.backticks (template_escapeTemplate text)))

theorem unescape_eq_self {text : Bytes} (plain : Byte.backslash ∉ text) : unescape text = text := by
  induction text with
  | nil => rw [unescape]
  | cons c t ih =>
      rw [List.mem_cons, not_or] at plain
      rw [unescape_cons (Ne.symm plain.1), ih plain.2]

/-- The literal stands in braces. -/
def InBraces (encoding : Encoding) : Prop :=
  encoding ∈ [bracedDouble, bracedSingle, bracedTemplate]

instance (encoding : Encoding) : Decidable encoding.InBraces :=
  inferInstanceAs (Decidable (encoding ∈ [bracedDouble, bracedSingle, bracedTemplate]))

theorem InBraces.cases {encoding : Encoding} (inBraces : encoding.InBraces) :
    encoding = bracedDouble ∨ encoding = bracedSingle ∨ encoding = bracedTemplate := by
  simpa [InBraces] using inBraces

theorem InBraces.preserves {encoding : Encoding} (inBraces : encoding.InBraces) {text : Bytes}
    (holds : encoding.Holds text) : encoding.Preserves text := by
  obtain rfl | rfl | rfl := inBraces.cases
  · trivial
  · trivial
  · change text.hasSubtext blockOpening = false
    rw [← Bool.not_eq_true, Bytes.hasSubtext_iff]
    exact holds.1

/-- A text in braces that holds a backslash gets longer each time it is written, and still holds
one. -/
theorem format_grows {encoding : Encoding} (inBraces : encoding.InBraces) {text : Bytes}
    (holds : encoding.Holds text) (escaped : Byte.backslash ∈ text) :
    ∃ longer, parse (encoding.format text) = some (encoding, longer) ∧ Byte.backslash ∈ longer ∧
      text.length + 1 ≤ longer.length := by
  have still {written : Bytes} (back : unescape written = text) : Byte.backslash ∈ written := by
    by_contra plain
    rw [unescape_eq_self plain] at back
    exact plain (back ▸ escaped)
  have pos := List.count_pos_iff.2 escaped
  have quotes {mark : UInt8} (isQuote : Byte.isQuote mark = true) :
      ∃ longer, parse (brace (quote mark (escape mark text))) = some (braced mark, longer) ∧
        Byte.backslash ∈ longer ∧ text.length + 1 ≤ longer.length := by
    refine ⟨escape mark text, ?_, still (unescape_escape mark text), ?_⟩
    · rw [parse_brace (Bytes.ink_of_isQuote isQuote), content?_escape isQuote]
      rfl
    · exact Nat.le_trans (Nat.add_le_add_left pos _) (length_escape mark text)
  obtain rfl | rfl | rfl := inBraces.cases
  · exact quotes (show Byte.isQuote Byte.doubleQuote = true by rfl)
  · exact quotes (show Byte.isQuote Byte.singleQuote = true by rfl)
  · have flat : text.hasSubtext blockOpening = false := inBraces.preserves holds
    refine ⟨escapeTemplate text, ?_, still (unescape_escapeTemplate text), ?_⟩
    · change parse (brace (quote Byte.backtick (escapeTemplate text))) = _
      rw [parse_brace Bytes.ink_backtick, content?_escapeTemplate, flat]
      rfl
    · exact Nat.le_trans (Nat.add_le_add_left pos _) (length_escapeTemplate text)

end Encoding

end MarkupEdit
