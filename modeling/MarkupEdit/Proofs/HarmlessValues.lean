import MarkupEdit.Proofs.LiteralRoundTrip

/-!
Values that are written as they are. Where a value holds no byte that an encoding escapes, the
written form is the value between delimiters; it is read back as that value, and writing the
value once more in the encoding that was read gives the same bytes.
-/

namespace MarkupEdit.Encoding

/-- No encoding escapes the byte, and it opens no tag. -/
def isHarmlessByte (c : UInt8) : Bool :=
  !(Byte.isQuote c || c == Byte.backtick || c == Byte.backslash || c == Byte.less ||
    c == Byte.dollar)

def Harmless (value : Bytes) : Prop := ∀ c ∈ value, isHarmlessByte c = true

instance (value : Bytes) : Decidable (Harmless value) :=
  decidable_of_iff (value.all isHarmlessByte = true) List.all_eq_true

/-- The value opens no tag and ends no double quoted one. -/
structure Quiet (value : Bytes) : Prop where
  noLess : Byte.less ∉ value
  noQuote : Byte.doubleQuote ∉ value

/-- The value opens no tag, and it can stand between double quotes as it is. -/
structure Quotable (value : Bytes) : Prop extends Quiet value where
  noBackslash : Byte.backslash ∉ value

theorem Quotable.ofBytes {value : Bytes}
    (h : value.all (fun c => c != Byte.less && c != Byte.doubleQuote && c != Byte.backslash) =
      true) : Quotable value := by
  rw [List.all_eq_true] at h
  exact ⟨⟨fun mem => absurd (h _ mem) (by decide), fun mem => absurd (h _ mem) (by decide)⟩,
    fun mem => absurd (h _ mem) (by decide)⟩

def opening : Encoding → Bytes
  | doubleQuoted => [Byte.doubleQuote]
  | singleQuoted => [Byte.singleQuote]
  | unquoted => []
  | bracedDouble => [Byte.openBrace, Byte.doubleQuote]
  | bracedSingle => [Byte.openBrace, Byte.singleQuote]
  | bracedTemplate => [Byte.openBrace, Byte.backtick]

def closing : Encoding → Bytes
  | doubleQuoted => [Byte.doubleQuote]
  | singleQuoted => [Byte.singleQuote]
  | unquoted => []
  | bracedDouble => [Byte.doubleQuote, Byte.closeBrace]
  | bracedSingle => [Byte.singleQuote, Byte.closeBrace]
  | bracedTemplate => [Byte.backtick, Byte.closeBrace]

/-- The text of a literal in an encoding, written as it is. -/
def delimit (encoding : Encoding) (text : Bytes) : Bytes :=
  encoding.opening ++ (text ++ encoding.closing)

namespace Harmless

variable {value : Bytes} (harmless : Harmless value)

include harmless

theorem not_mem {c : UInt8} (h : isHarmlessByte c = false) : c ∉ value := fun mem => by
  have := harmless c mem
  simp [h] at this

theorem quiet : Quiet value := ⟨harmless.not_mem (by decide), harmless.not_mem (by decide)⟩

theorem tail {c : UInt8} {t : Bytes} (same : value = c :: t) : Harmless t := by
  subst same
  exact fun d mem => harmless d (List.mem_cons_of_mem c mem)

omit harmless

theorem flatMap_self {f : UInt8 → Bytes} {text : Bytes} (h : ∀ c ∈ text, f c = [c]) :
    text.flatMap f = text := by
  induction text with
  | nil => rfl
  | cons c t ih =>
      rw [List.flatMap_cons, h c List.mem_cons_self,
        ih fun d mem => h d (List.mem_cons_of_mem c mem)]
      rfl

include harmless

theorem refer_eq {mark : UInt8} (special : isHarmlessByte mark = false) (reference : String) :
    refer mark reference value = value := by
  refine flatMap_self fun c mem => if_neg ?_
  rintro rfl
  exact harmless.not_mem special mem

theorem escape_eq {mark : UInt8} (special : isHarmlessByte mark = false) :
    escape mark value = value := by
  refine flatMap_self fun c mem => if_neg ?_
  rintro (rfl | rfl)
  · exact harmless.not_mem special mem
  · exact harmless.not_mem (by decide) mem

theorem escapeTemplate_eq : escapeTemplate value = value := by
  induction value with
  | nil => rfl
  | cons c t ih =>
      rw [escapeTemplate_cons, ih (harmless.tail rfl), if_neg]
      have plain := harmless c List.mem_cons_self
      rintro (rfl | rfl | ⟨rfl, -⟩)
      · exact absurd plain (by decide)
      · exact absurd plain (by decide)
      · exact absurd plain (by decide)

theorem formatQuoted_eq {mark other : UInt8} (special : isHarmlessByte mark = false)
    (reference : String) : formatQuoted mark other reference value = quote mark value := by
  have absent : value.contains mark = false := by simpa using harmless.not_mem special
  rw [formatQuoted, if_neg (by rw [absent]; simp), harmless.refer_eq special]

theorem content?_eq {mark : UInt8} (isQuote : Byte.isQuote mark = true) :
    content? (quote mark value) = some value := by
  have special : isHarmlessByte mark = false := by simp [isHarmlessByte, isQuote]
  have read := content?_escape isQuote value
  rwa [harmless.escape_eq special] at read

theorem hasSubtext_eq : value.hasSubtext blockOpening = false := by
  rw [← Bool.not_eq_true, Bytes.hasSubtext_iff]
  intro stands
  have dollar : Byte.dollar ∈ blockOpening := by decide
  exact harmless.not_mem (by decide) (stands.subset dollar)

theorem content?_template : content? (quote Byte.backtick value) = some value := by
  have read := content?_escapeTemplate value
  rwa [harmless.hasSubtext_eq, harmless.escapeTemplate_eq] at read

end Harmless

theorem delimit_braced {encoding : Encoding} {mark : UInt8}
    (opens : encoding.opening = [Byte.openBrace, mark])
    (closes : encoding.closing = [mark, Byte.closeBrace]) (text : Bytes) :
    encoding.delimit text = brace (quote mark text) := by
  simp [delimit, opens, closes, brace, quote]

/-- A value stands between the delimiters of an encoding and is read back from there. -/
structure Verbatim (encoding : Encoding) (value : Bytes) : Prop where
  read : parse (encoding.delimit value) = some (encoding, value)
  again : encoding.format value = encoding.delimit value

variable {value : Bytes}

theorem Quotable.verbatim (quotable : Quotable value) : Verbatim doubleQuoted value where
  read := by
    have isQuote : Byte.isQuote Byte.doubleQuote = true := rfl
    have self : escape Byte.doubleQuote value = value := by
      refine Harmless.flatMap_self fun c mem => if_neg ?_
      rintro (rfl | rfl)
      · exact quotable.noQuote mem
      · exact quotable.noBackslash mem
    have read := content?_escape isQuote value
    rw [self] at read
    change parse (quote Byte.doubleQuote value) = _
    rw [parse_quote isQuote, read]
    rfl
  again := by
    have absent : value.contains Byte.doubleQuote = false := by simpa using quotable.noQuote
    have kept : refer Byte.doubleQuote "&quot;" value = value := by
      refine Harmless.flatMap_self fun c mem => if_neg ?_
      rintro rfl
      exact quotable.noQuote mem
    change formatQuoted _ _ _ _ = quote _ _
    rw [formatQuoted, if_neg (by rw [absent]; simp), kept]

theorem Harmless.verbatim_double (harmless : Harmless value) : Verbatim doubleQuoted value :=
  Quotable.verbatim ⟨harmless.quiet, harmless.not_mem (by decide)⟩

theorem Harmless.verbatim_single (harmless : Harmless value) : Verbatim singleQuoted value where
  read := by
    change parse (quote Byte.singleQuote value) = _
    rw [parse_quote rfl, harmless.content?_eq rfl]
    rfl
  again := harmless.formatQuoted_eq (by decide) _

theorem verbatim_plain (ne : value ≠ []) (plain : value.all isPlainByte = true) :
    Verbatim unquoted value where
  read := by
    change parse (value ++ []) = _
    rw [List.append_nil, parse_plain ne plain]
  again := by
    change (if value.isEmpty = false ∧ value.all isPlainByte = true then _ else _) = value ++ []
    rw [List.append_nil, if_pos ⟨by simpa using ne, plain⟩]

theorem Harmless.verbatim_braced (harmless : Harmless value) {mark : UInt8}
    (isQuote : Byte.isQuote mark = true) {encoding : Encoding}
    (opens : encoding.opening = [Byte.openBrace, mark])
    (closes : encoding.closing = [mark, Byte.closeBrace]) (same : braced mark = encoding)
    (written : encoding.format value = brace (quote mark (escape mark value))) :
    Verbatim encoding value where
  read := by
    rw [delimit_braced opens closes, parse_brace (Bytes.ink_of_isQuote isQuote),
      harmless.content?_eq isQuote, same]
    rfl
  again := by
    have special : isHarmlessByte mark = false := by simp [isHarmlessByte, isQuote]
    rw [written, harmless.escape_eq special, delimit_braced opens closes]

theorem Harmless.verbatim_template (harmless : Harmless value) :
    Verbatim bracedTemplate value where
  read := by
    rw [delimit_braced rfl rfl, parse_brace Bytes.ink_backtick, harmless.content?_template]
    rfl
  again := by rw [format, harmless.escapeTemplate_eq, delimit_braced rfl rfl]

/-- A harmless value is written as it is. One that cannot stand without delimiters gets quotes. -/
theorem Harmless.written (harmless : Harmless value) (encoding : Encoding) :
    ∃ used, Verbatim used value ∧ encoding.format value = used.delimit value := by
  have own {used : Encoding} (verbatim : Verbatim used value) :
      ∃ used', Verbatim used' value ∧ used.format value = used'.delimit value :=
    ⟨used, verbatim, verbatim.again⟩
  cases encoding with
  | doubleQuoted => exact own harmless.verbatim_double
  | singleQuoted => exact own harmless.verbatim_single
  | unquoted =>
      by_cases plain : value.isEmpty = false ∧ value.all isPlainByte = true
      · exact own (verbatim_plain (by simpa using plain.1) plain.2)
      · refine ⟨doubleQuoted, harmless.verbatim_double, ?_⟩
        rw [format, if_neg plain]
        exact harmless.verbatim_double.again
  | bracedDouble => exact own (harmless.verbatim_braced rfl rfl rfl rfl rfl)
  | bracedSingle => exact own (harmless.verbatim_braced rfl rfl rfl rfl rfl)
  | bracedTemplate => exact own harmless.verbatim_template

end MarkupEdit.Encoding
