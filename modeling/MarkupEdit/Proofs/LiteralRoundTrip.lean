import Mathlib.Data.List.Infix
import MarkupEdit.Proofs.Balance
import MarkupEdit.Proofs.TextParts
import MarkupEdit.Proofs.TextSearch

/-!
What is read back from a value that was written. A written value is read as one literal, and the
literal stands for the value; the exceptions are a value between quotes that ends in a backslash
which no other one takes along, and a value with `${` in it that is written as a template.
-/

namespace MarkupEdit

namespace Bytes

/-- No white space character has the byte in its form. -/
def Ink (c : UInt8) : Prop := ∀ form ∈ spaceForms, c ∉ form

instance (c : UInt8) : Decidable (Ink c) :=
  inferInstanceAs (Decidable (∀ form ∈ spaceForms, c ∉ form))

theorem ink_of_isQuote {c : UInt8} (h : Byte.isQuote c = true) : Ink c := by
  simp only [Byte.isQuote, Bool.or_eq_true, beq_iff_eq] at h
  cases h with
  | inl h => subst h; decide +kernel
  | inr h => subst h; decide +kernel

theorem ink_backtick : Ink Byte.backtick := by decide +kernel

variable {c : UInt8} (ink : Ink c)

include ink

theorem spaceWidth_ink (t : Bytes) : spaceWidth (c :: t) = 0 := by
  cases width : spaceWidth (c :: t) with
  | zero => rfl
  | succ n =>
      obtain ⟨form, mem, length, r, same⟩ := spaceForm_of_spaceWidth width
      cases form with
      | nil => cases length
      | cons d form =>
          cases same
          exact absurd List.mem_cons_self (ink _ mem)

theorem trimStart_ink (t : Bytes) : trimStart (c :: t) = c :: t := by
  rw [trimStart, spaceWidth_ink ink]

theorem inkEnd_ink (i last : Nat) (s : Bytes) : inkEnd i last (s ++ [c]) = i + s.length + 1 := by
  generalize whole : s ++ [c] = u
  fun_induction inkEnd i last u generalizing s with
  | case1 => simp at whole
  | case2 i last d t width ih =>
      cases s with
      | nil =>
          cases whole
          rw [inkEnd]
          rfl
      | cons e s =>
          cases whole
          rw [ih s rfl, List.length_cons]
          omega
  | case3 i last d t n width ih =>
      obtain ⟨form, mem, length, pre⟩ := spaceForm_of_spaceWidth width
      rw [← whole] at pre
      have short : form <+: s := by
        cases List.prefix_concat_iff.1 pre with
        | inl all =>
            have inForm : c ∈ form := by
              rw [all]
              exact List.mem_append_right _ List.mem_cons_self
            exact absurd inForm (ink form mem)
        | inr short => exact short
      have least := short.length_le
      rw [length] at least
      cases s with
      | nil => cases least
      | cons e s =>
          obtain ⟨rfl, rfl⟩ := List.cons.inj whole
          rw [List.length_cons] at least
          rw [ih (s.drop n) (List.drop_append_of_le_length (by omega)).symm, List.length_drop,
            List.length_cons]
          omega

theorem trim_ink {d : UInt8} (ink' : Ink d) (s : Bytes) :
    trim (d :: (s ++ [c])) = d :: (s ++ [c]) := by
  rw [trim, trimStart_ink ink', trimEnd, ← List.cons_append, inkEnd_ink ink, Nat.zero_add,
    List.take_of_length_le]
  rw [List.length_append, List.length_singleton]

end Bytes

namespace Encoding

/-- A value between delimiters is read as one quoted literal exactly if the scanner does not
find its end before the last byte. -/
theorem content?_quote {mark : UInt8} (isQuote : Byte.isQuote mark = true) (w : Bytes) :
    content? (quote mark w) =
      if Scan.quotedEnd mark 1 (w ++ [mark]) = some (w.length + 2) then some w else none := by
  have width : (quote mark w).length = w.length + 2 := by simp [quote]
  rw [content?.eq_def, width]
  simp only [quote, isQuote, if_true, Units.quotedEnd, List.drop_zero, List.dropLast_concat]

theorem content?_backticks (w : Bytes) :
    content? (quote Byte.backtick w) =
      if Scan.templateEnd 1 (w ++ [Byte.backtick]) = some (w.length + 2) ∧
        (quote Byte.backtick w).hasSubtext (utf8 "$\x7b") = false then some w else none := by
  have width : (quote Byte.backtick w).length = w.length + 2 := by simp [quote]
  have unit : Units.templateEnd (quote Byte.backtick w) 0 =
      Scan.templateEnd 1 (w ++ [Byte.backtick]) := by
    rw [Units.templateEnd, List.drop_zero]
    exact if_pos rfl
  have notQuote : ¬ Byte.isQuote Byte.backtick = true := by decide
  rw [content?.eq_def, unit, width, quote]
  dsimp only
  rw [if_neg notQuote, if_pos rfl, List.dropLast_concat]

/-- The encoding of a literal that starts with a quote. -/
def quoted (mark : UInt8) : Encoding :=
  if mark = Byte.doubleQuote then doubleQuoted else singleQuoted

theorem parse_quote {mark : UInt8} (isQuote : Byte.isQuote mark = true) (w : Bytes) :
    parse (quote mark w) = (content? (quote mark w)).map
      (quoted mark, ·) := by
  rw [parse.eq_def]
  simp only [quote, isQuote, if_true]
  rfl

theorem unbraced?_brace (inner : Bytes) : unbraced? (brace inner) = some (Bytes.trim inner) := by
  simp only [unbraced?, brace, List.getLast?_concat, and_self, if_true, List.dropLast_concat]

theorem parse_brace_eq (inner : Bytes) :
    parse (brace inner) = (content? inner.trim).bind fun text =>
      inner.trim.head?.map (braced ·, text) := by
  have notQuote : ¬ Byte.isQuote Byte.openBrace = true := by decide
  rw [parse.eq_def]
  change (if Byte.isQuote Byte.openBrace = true then _ else if _ = _ then
    (unbraced? (brace inner)).bind _ else _) = _
  rw [if_neg notQuote, if_pos rfl, unbraced?_brace, Option.bind_some]
  cases content? inner.trim with
  | none => rfl
  | some text =>
      cases inner.trim.head? with
      | none => rfl
      | some first => rfl

theorem parse_brace {mark : UInt8} (ink : Bytes.Ink mark) (w : Bytes) :
    parse (brace (quote mark w)) = (content? (quote mark w)).map (braced mark, ·) := by
  have trimmed : Bytes.trim (quote mark w) = quote mark w := Bytes.trim_ink ink ink w
  rw [parse_brace_eq, trimmed]
  cases content? (quote mark w) with
  | none => rfl
  | some text => rfl

/-- The number of backslashes that a text ends in. -/
def backslashesAtEnd (value : Bytes) : Nat :=
  (value.reverse.takeWhile (· == Byte.backslash)).length

/-- The text ends in a backslash that takes along what stands behind the text. -/
def opensEscape (value : Bytes) : Bool :=
  value.foldl (fun escaping c => !escaping && c == Byte.backslash) false

theorem opensEscape_iff (value : Bytes) :
    opensEscape value = true ↔ backslashesAtEnd value % 2 = 1 := by
  induction value using List.reverseRecOn with
  | nil => decide
  | append_singleton u c ih =>
      simp only [opensEscape, List.foldl_append, List.foldl_cons, List.foldl_nil] at ih ⊢
      simp only [backslashesAtEnd, List.reverse_append, List.reverse_singleton,
        List.singleton_append, List.takeWhile_cons] at ih ⊢
      by_cases escape : c = Byte.backslash
      · simp only [escape, beq_self_eq_true, Bool.and_true, Bool.not_eq_true', if_true,
          List.length_cons]
        rw [← Bool.not_eq_true, ih]
        omega
      · simp [escape]

theorem opensEscape_eq_false_iff (value : Bytes) :
    opensEscape value = false ↔ backslashesAtEnd value % 2 = 0 := by
  rw [← Bool.not_eq_true, opensEscape_iff]
  omega

theorem opensEscape_pair (c : UInt8) (t : Bytes) :
    opensEscape (Byte.backslash :: c :: t) = opensEscape t := by
  simp [opensEscape]

theorem opensEscape_cons {c : UInt8} (h : c ≠ Byte.backslash) (t : Bytes) :
    opensEscape (c :: t) = opensEscape t := by
  rw [opensEscape, List.foldl_cons, beq_eq_false_iff_ne.2 h, Bool.and_false, opensEscape]

/-- A literal ends at its last quote, unless a backslash takes that one along. -/
theorem quotedEnd_concat {mark : UInt8} (notEscape : mark ≠ Byte.backslash) {w : Bytes}
    (absent : mark ∉ w) (i : Nat) :
    Scan.quotedEnd mark i (w ++ [mark]) =
      if opensEscape w then none else some (i + w.length + 1) := by
  -- The last byte is the one that ends the literal, unless a backslash takes it along.
  generalize whole : w ++ [mark] = s
  fun_induction Scan.quotedEnd mark i s generalizing w with
  | case1 => simp at whole
  | case2 i =>
      have := congrArg List.getLast? whole
      simp [notEscape] at this
  | case3 i d u ih =>
      cases w with
      | nil => simp at whole
      | cons e w =>
          obtain ⟨rfl, behind⟩ := List.cons.inj whole
          cases w with
          | nil =>
              obtain ⟨rfl, rfl⟩ := List.cons.inj behind
              rw [Scan.quotedEnd]
              rfl
          | cons e w =>
              obtain ⟨rfl, rest⟩ := List.cons.inj behind
              have later : mark ∉ w := fun mem =>
                absent (List.mem_cons_of_mem _ (List.mem_cons_of_mem _ mem))
              rw [ih later rest, opensEscape_pair]
              simp only [List.length_cons]
              congr 2
              omega
  | case4 i t =>
      cases w with
      | nil =>
          cases whole
          rfl
      | cons e w =>
          obtain ⟨rfl, -⟩ := List.cons.inj whole
          exact absurd List.mem_cons_self absent
  | case5 i c t escape other ih =>
      cases w with
      | nil =>
          obtain ⟨same, -⟩ := List.cons.inj whole
          exact absurd same.symm other
      | cons e w =>
          obtain ⟨rfl, rest⟩ := List.cons.inj whole
          rw [ih (fun mem => absent (List.mem_cons_of_mem _ mem)) rest, opensEscape_cons escape]
          simp only [List.length_cons]
          congr 2
          omega

/-- What a text with escapes stands for: each backslash stands for the byte behind it. -/
def unescape : Bytes → Bytes
  | [] => []
  | c :: t =>
    if c = Byte.backslash then
      match t with
      | [] => [c]
      | d :: u => d :: unescape u
    else c :: unescape t

theorem unescape_pair (c : UInt8) (t : Bytes) :
    unescape (Byte.backslash :: c :: t) = c :: unescape t := by
  rw [unescape, if_pos rfl]

theorem unescape_cons {c : UInt8} (h : c ≠ Byte.backslash) (t : Bytes) :
    unescape (c :: t) = c :: unescape t := by
  rw [unescape.eq_def]
  simp only [if_neg h]

theorem unescape_escape (mark : UInt8) (value : Bytes) : unescape (escape mark value) = value := by
  induction value with
  | nil => rw [escape, List.flatMap_nil, unescape]
  | cons c t ih =>
      rw [escape] at ih ⊢
      rw [List.flatMap_cons]
      by_cases escaped : c = mark ∨ c = Byte.backslash
      · rw [if_pos escaped, List.cons_append, List.singleton_append, unescape_pair, ih]
      · rw [if_neg escaped, List.singleton_append, unescape_cons (fun h => escaped (.inr h)), ih]

theorem quotedText_escape (mark : UInt8) (value : Bytes) :
    QuotedText mark (escape mark value) := by
  induction value with
  | nil => exact .nil
  | cons c t ih =>
      rw [escape] at ih ⊢
      rw [List.flatMap_cons]
      by_cases escaped : c = mark ∨ c = Byte.backslash
      · rw [if_pos escaped]
        exact .escape c ih
      · rw [if_neg escaped]
        exact .byte (fun h => escaped (.inr h)) (fun h => escaped (.inl h)) ih

theorem content?_escape {mark : UInt8} (isQuote : Byte.isQuote mark = true) (value : Bytes) :
    content? (quote mark (escape mark value)) = some (escape mark value) := by
  rw [content?_quote isQuote, Scan.quotedEnd_text isQuote (quotedText_escape mark value), if_pos]
  congr 1
  omega

theorem escapeTemplate_cons (c : UInt8) (t : Bytes) :
    escapeTemplate (c :: t) =
      if c = Byte.backtick ∨ c = Byte.backslash ∨
          (c = Byte.dollar ∧ (escapeTemplate t).head? = some Byte.openBrace) then
        Byte.backslash :: c :: escapeTemplate t
      else c :: escapeTemplate t := by
  rw [escapeTemplate, List.foldr_cons, ← escapeTemplate]

theorem unescape_escapeTemplate (value : Bytes) : unescape (escapeTemplate value) = value := by
  induction value with
  | nil => rw [escapeTemplate, List.foldr_nil, unescape]
  | cons c t ih =>
      rw [escapeTemplate_cons]
      split
      next => rw [unescape_pair, ih]
      next plain => rw [unescape_cons (fun h => plain (.inr (.inl h))), ih]

theorem template_escapeTemplate (value : Bytes) : Markup .template (escapeTemplate value) := by
  induction value with
  | nil => exact .templateNil
  | cons c t ih =>
      rw [escapeTemplate_cons]
      split
      next => exact .templateEscape c ih
      next plain =>
        exact .templateByte (fun h => plain (.inr (.inl h))) (fun h => plain (.inl h))
          (fun dollar open' => plain (.inr (.inr ⟨dollar, open'⟩))) ih

/-- `${`, which opens a block in a template. -/
abbrev blockOpening : Bytes := [Byte.dollar, Byte.openBrace]

theorem head?_escapeTemplate (value : Bytes) :
    (escapeTemplate value).head? = some Byte.openBrace ↔ value.head? = some Byte.openBrace := by
  cases value with
  | nil => rfl
  | cons c t =>
      rw [escapeTemplate_cons]
      split
      next escaped =>
        have other : c ≠ Byte.openBrace := by
          rintro rfl
          have apart : Byte.openBrace ≠ Byte.backtick ∧ Byte.openBrace ≠ Byte.backslash ∧
              Byte.openBrace ≠ Byte.dollar := by decide
          simp only [apart.1, apart.2.1, apart.2.2, false_and, false_or] at escaped
        have escape : Byte.backslash ≠ Byte.openBrace := by decide
        simp only [List.head?_cons, Option.some.injEq, escape, other]
      next => rfl

theorem blockOpening_infix_cons {c : UInt8} {t : Bytes} :
    blockOpening <:+: c :: t ↔
      (c = Byte.dollar ∧ t.head? = some Byte.openBrace) ∨ blockOpening <:+: t := by
  rw [List.infix_cons_iff, List.cons_prefix_cons]
  cases t with
  | nil => simp
  | cons d u => simp [eq_comm]

theorem blockOpening_infix_escapeTemplate (value : Bytes) :
    blockOpening <:+: escapeTemplate value ↔ blockOpening <:+: value := by
  induction value with
  | nil => rfl
  | cons c t ih =>
      rw [escapeTemplate_cons, blockOpening_infix_cons]
      split
      next escaped =>
        rw [blockOpening_infix_cons, blockOpening_infix_cons, ih, head?_escapeTemplate]
        have notDollar : ¬ (Byte.backslash = Byte.dollar) := by decide
        simp only [notDollar, false_and, false_or]
      next plain =>
        rw [blockOpening_infix_cons, ih, head?_escapeTemplate]

theorem blockOpening_infix_quote (w : Bytes) :
    blockOpening <:+: quote Byte.backtick w ↔ blockOpening <:+: w := by
  have notDollar : Byte.backtick ≠ Byte.dollar := by decide
  have notLast : ¬ blockOpening <:+ w ++ [Byte.backtick] := by
    rintro ⟨r, same⟩
    have last := congrArg List.getLast? same
    rw [List.getLast?_concat, List.getLast?_append] at last
    exact absurd (Option.some.inj last) (by decide)
  rw [quote, blockOpening_infix_cons, List.infix_concat_iff]
  simp only [notDollar, notLast, false_and, false_or]

theorem content?_escapeTemplate (value : Bytes) :
    content? (quote Byte.backtick (escapeTemplate value)) =
      if value.hasSubtext blockOpening then none else some (escapeTemplate value) := by
  have same : (quote Byte.backtick (escapeTemplate value)).hasSubtext (utf8 "$\x7b") =
      value.hasSubtext blockOpening := by
    rw [Bool.eq_iff_iff, Bytes.hasSubtext_iff, Bytes.hasSubtext_iff]
    exact (blockOpening_infix_quote _).trans (blockOpening_infix_escapeTemplate value)
  have closed := Scan.passes_markup (template_escapeTemplate value) 1 []
  rw [content?_backticks, same, closed]
  cases value.hasSubtext blockOpening with
  | true => simp
  | false =>
      rw [if_pos ⟨congrArg some (by omega), rfl⟩]
      rfl

/-- What a text with references to quotes stands for. -/
def unrefer : Bytes → Bytes
  | [] => []
  | c :: t =>
    if (utf8 "&quot;").isPrefixOf (c :: t) then Byte.doubleQuote :: unrefer (t.drop 5)
    else if (utf8 "&#39;").isPrefixOf (c :: t) then Byte.singleQuote :: unrefer (t.drop 4)
    else c :: unrefer t
termination_by s => s.length
decreasing_by all_goals (simp only [List.length_cons, List.length_drop]; omega)

/-- No reference to a quote stands in the text. -/
structure Unreferenced (value : Bytes) : Prop where
  double : ¬ utf8 "&quot;" <:+: value
  single : ¬ utf8 "&#39;" <:+: value

theorem Unreferenced.tail {c : UInt8} {t : Bytes} (h : Unreferenced (c :: t)) : Unreferenced t :=
  ⟨fun stands => h.double (List.infix_cons stands), fun stands => h.single (List.infix_cons stands)⟩

/-- The references for the two quotes. -/
inductive Refers : UInt8 → String → Prop where
  | double : Refers Byte.doubleQuote "&quot;"
  | single : Refers Byte.singleQuote "&#39;"

theorem refer_cons (mark : UInt8) (reference : String) (c : UInt8) (t : Bytes) :
    refer mark reference (c :: t) =
      (if c = mark then utf8 reference else [c]) ++ refer mark reference t := by
  rw [refer, List.flatMap_cons, ← refer]

theorem unrefer_cons {c : UInt8} {t : Bytes} (double : ¬ utf8 "&quot;" <+: c :: t)
    (single : ¬ utf8 "&#39;" <+: c :: t) : unrefer (c :: t) = c :: unrefer t := by
  rw [unrefer, if_neg (mt List.isPrefixOf_iff_prefix.1 double),
    if_neg (mt List.isPrefixOf_iff_prefix.1 single)]

theorem unrefer_eq_self {value : Bytes} (h : Unreferenced value) : unrefer value = value := by
  induction value with
  | nil => rw [unrefer]
  | cons c t ih =>
      rw [unrefer_cons (fun begins => h.double begins.isInfix)
        (fun begins => h.single begins.isInfix), ih h.tail]

section

variable {mark : UInt8} {reference : String} (refers : Refers mark reference)

include refers

theorem Refers.ampersand : (utf8 reference).head? = some Byte.ampersand := by
  cases refers with
  | double => rfl
  | single => rfl

theorem Refers.unrefer (s : Bytes) : unrefer (utf8 reference ++ s) = mark :: unrefer s := by
  cases refers with
  | double =>
      change Encoding.unrefer (Byte.ampersand :: (utf8 "quot;" ++ s)) = _
      have begins : (utf8 "&quot;").isPrefixOf (Byte.ampersand :: (utf8 "quot;" ++ s)) = true :=
        List.isPrefixOf_iff_prefix.2 ⟨s, rfl⟩
      rw [Encoding.unrefer, if_pos begins]
      rfl
  | single =>
      change Encoding.unrefer (Byte.ampersand :: (utf8 "#39;" ++ s)) = _
      have other : ¬ (utf8 "&quot;").isPrefixOf (Byte.ampersand :: (utf8 "#39;" ++ s)) = true := by
        rw [List.isPrefixOf_iff_prefix]
        rintro ⟨r, same⟩
        cases same
      have begins : (utf8 "&#39;").isPrefixOf (Byte.ampersand :: (utf8 "#39;" ++ s)) = true :=
        List.isPrefixOf_iff_prefix.2 ⟨s, rfl⟩
      rw [Encoding.unrefer, if_neg other, if_pos begins]
      rfl

/-- A text without `&` that begins a text with references begins the one without them. -/
theorem Refers.prefix_of_prefix {u value : Bytes} (plain : Byte.ampersand ∉ u)
    (h : u <+: refer mark reference value) : u <+: value := by
  induction u generalizing value with
  | nil => exact List.nil_prefix
  | cons c u ih =>
      cases value with
      | nil => exact h
      | cons d t =>
          rw [refer_cons] at h
          split at h
          next =>
            obtain ⟨r, split⟩ := List.head?_eq_some_iff.1 refers.ampersand
            rw [split, List.cons_append, List.cons_prefix_cons] at h
            exact absurd (h.1 ▸ List.mem_cons_self) plain
          next =>
            rw [List.singleton_append, List.cons_prefix_cons] at h
            rw [List.cons_prefix_cons]
            exact ⟨h.1, ih (fun mem => plain (List.mem_cons_of_mem c mem)) h.2⟩

theorem Refers.not_prefix (name : String) (plain : Byte.ampersand ∉ utf8 name) {c : UInt8}
    {t : Bytes} (absent : ¬ Byte.ampersand :: utf8 name <:+: c :: t) :
    ¬ Byte.ampersand :: utf8 name <+: c :: refer mark reference t := by
  intro stands
  rw [List.cons_prefix_cons] at stands
  apply absent
  apply List.IsPrefix.isInfix
  rw [List.cons_prefix_cons]
  exact ⟨stands.1, refers.prefix_of_prefix plain stands.2⟩

theorem unrefer_refer {value : Bytes} (h : Unreferenced value) :
    unrefer (refer mark reference value) = value := by
  induction value with
  | nil => rw [refer, List.flatMap_nil, unrefer]
  | cons c t ih =>
      rw [refer_cons]
      split
      next same => rw [refers.unrefer, ih h.tail, same]
      next =>
        have double := refers.not_prefix "quot;" (by decide) h.double
        have single := refers.not_prefix "#39;" (by decide) h.single
        rw [List.singleton_append, unrefer_cons double single, ih h.tail]

theorem not_mem_refer (value : Bytes) : mark ∉ refer mark reference value := by
  intro mem
  obtain ⟨b, -, inPiece⟩ := List.mem_flatMap.1 mem
  split at inPiece
  next =>
    revert inPiece
    cases refers with
    | double => decide
    | single => decide
  next other => exact other (List.mem_singleton.1 inPiece).symm

theorem Refers.mark_ne : mark ≠ Byte.backslash := by
  cases refers with
  | double => decide
  | single => decide

theorem Refers.isQuote : Byte.isQuote mark = true := by
  cases refers with
  | double => rfl
  | single => rfl

theorem opensEscape_refer (value : Bytes) :
    opensEscape (refer mark reference value) = opensEscape value := by
  have closes (escaping : Bool) :
      (utf8 reference).foldl (fun escaping c => !escaping && c == Byte.backslash) escaping =
        false := by
    cases refers with
    | double => cases escaping <;> decide
    | single => cases escaping <;> decide
  have run (escaping : Bool) :
      (refer mark reference value).foldl (fun escaping c => !escaping && c == Byte.backslash)
        escaping =
      value.foldl (fun escaping c => !escaping && c == Byte.backslash) escaping := by
    induction value generalizing escaping with
    | nil => rfl
    | cons c t ih =>
        rw [refer_cons, List.foldl_append, List.foldl_cons, ih]
        split
        next same => rw [closes, same, beq_eq_false_iff_ne.2 refers.mark_ne, Bool.and_false]
        next => rfl
  exact run false

end

/-- What a text between delimiters stands for. -/
def decode : Encoding → Bytes → Bytes
  | doubleQuoted, text | singleQuoted, text => unrefer text
  | unquoted, text => text
  | bracedDouble, text | bracedSingle, text | bracedTemplate, text => unescape text

/-- A written value is read as one literal in the given case only, and then what is read stands
for the value. -/
structure ReadsBack (raw value : Bytes) (preserved : Prop) : Prop where
  read : (parse raw).isSome = true ↔ preserved
  decoded : ∀ written text, parse raw = some (written, text) → Unreferenced value →
    written.decode text = value

theorem ReadsBack.of_iff {raw value : Bytes} {p q : Prop} (h : ReadsBack raw value p)
    (same : p ↔ q) : ReadsBack raw value q :=
  ⟨h.read.trans same, h.decoded⟩

theorem readsBack_of_parse {raw value text : Bytes} {written : Encoding} {lost : Bool}
    (h : parse raw = if lost then none else some (written, text))
    (decoded : Unreferenced value → written.decode text = value) :
    ReadsBack raw value (lost = false) := by
  cases lost with
  | true =>
      rw [if_pos rfl] at h
      exact ⟨by simp [h], by simp [h]⟩
  | false =>
      rw [if_neg Bool.false_ne_true] at h
      refine ⟨by simp [h], fun written' text' read plain => ?_⟩
      cases h.symm.trans read
      exact decoded plain

theorem decode_quoted (mark : UInt8) (text : Bytes) : (quoted mark).decode text = unrefer text := by
  rw [quoted]
  split
  next => rfl
  next => rfl

theorem decode_braced (mark : UInt8) (text : Bytes) :
    (braced mark).decode text = unescape text := by
  rw [braced]
  split
  next => rfl
  next =>
    split
    next => rfl
    next => rfl

/-- A text that does not hold its own quote is read back, unless it takes along the last one. -/
theorem parse_quoted {mark : UInt8} (isQuote : Byte.isQuote mark = true) {w : Bytes}
    (absent : mark ∉ w) :
    parse (quote mark w) = if opensEscape w then none else some (quoted mark, w) := by
  have notEscape : mark ≠ Byte.backslash := by
    rintro rfl
    exact absurd isQuote (by decide)
  rw [parse_quote isQuote, content?_quote isQuote, quotedEnd_concat notEscape absent]
  cases opensEscape w with
  | true => rfl
  | false =>
      rw [if_neg Bool.false_ne_true, if_neg Bool.false_ne_true, if_pos (by congr 1; omega)]
      rfl

theorem readsBack_quote {mark : UInt8} (isQuote : Byte.isQuote mark = true)
    {w value : Bytes} (absent : mark ∉ w) (same : opensEscape w = opensEscape value)
    (decoded : Unreferenced value → unrefer w = value) :
    ReadsBack (quote mark w) value (opensEscape value = false) := by
  have read := parse_quoted isQuote absent
  rw [same] at read
  refine readsBack_of_parse read fun plain => ?_
  rw [decode_quoted, decoded plain]

theorem readsBack_formatQuoted {mark other : UInt8} {reference : String}
    (refers : Refers mark reference) (isQuote : Byte.isQuote other = true) (value : Bytes) :
    ReadsBack (formatQuoted mark other reference value) value (opensEscape value = false) := by
  rw [formatQuoted]
  split
  next switched =>
    have absent : other ∉ value := by simpa using switched.2
    exact readsBack_quote isQuote absent rfl unrefer_eq_self
  next =>
    exact readsBack_quote refers.isQuote (not_mem_refer refers value)
      (opensEscape_refer refers value) (unrefer_refer refers)

theorem readsBack_formatDouble (value : Bytes) :
    ReadsBack (formatDouble value) value (opensEscape value = false) :=
  readsBack_formatQuoted .double rfl value

theorem parse_plain {value : Bytes} (ne : value ≠ []) (plain : value.all isPlainByte = true) :
    parse value = some (unquoted, value) := by
  cases value with
  | nil => exact absurd rfl ne
  | cons c t =>
      rw [List.all_cons, Bool.and_eq_true, isPlainByte, Bool.not_eq_true'] at plain
      simp only [Bool.or_eq_false_iff, beq_eq_false_iff_ne] at plain
      obtain ⟨⟨⟨⟨⟨⟨⟨⟨⟨-, notQuote⟩, notBacktick⟩, -⟩, -⟩, -⟩, notBrace⟩, -⟩, -⟩, -⟩ := plain
      rw [parse.eq_def]
      simp only [notQuote, notBacktick, notBrace, if_false, Bool.false_eq_true]

theorem readsBack_plain {value : Bytes} (ne : value ≠ []) (plain : value.all isPlainByte = true) :
    ReadsBack value value True := by
  have read : parse value = if false then none else some (unquoted, value) := parse_plain ne plain
  exact (readsBack_of_parse read fun _ => rfl).of_iff (iff_of_true rfl trivial)

theorem readsBack_braced {mark : UInt8} (isQuote : Byte.isQuote mark = true) (value : Bytes) :
    ReadsBack (brace (quote mark (escape mark value))) value True := by
  have read : parse (brace (quote mark (escape mark value))) =
      if false then none else some (braced mark, escape mark value) := by
    rw [parse_brace (Bytes.ink_of_isQuote isQuote), content?_escape isQuote]
    rfl
  refine (readsBack_of_parse read fun _ => ?_).of_iff (iff_of_true rfl trivial)
  rw [decode_braced, unescape_escape]

theorem readsBack_template (value : Bytes) :
    ReadsBack (brace (quote Byte.backtick (escapeTemplate value))) value
      (value.hasSubtext blockOpening = false) := by
  have read : parse (brace (quote Byte.backtick (escapeTemplate value))) =
      if value.hasSubtext blockOpening then none
      else some (bracedTemplate, escapeTemplate value) := by
    rw [parse_brace Bytes.ink_backtick, content?_escapeTemplate]
    cases value.hasSubtext blockOpening with
    | true => rfl
    | false => rfl
  exact readsBack_of_parse read fun _ => unescape_escapeTemplate value

/-- The values that are read as one literal after they were written. -/
def Preserves : Encoding → Bytes → Prop
  | doubleQuoted, value | singleQuoted, value => backslashesAtEnd value % 2 = 0
  | unquoted, value =>
    (value ≠ [] ∧ value.all isPlainByte = true) ∨ backslashesAtEnd value % 2 = 0
  | bracedDouble, _ | bracedSingle, _ => True
  | bracedTemplate, value => value.hasSubtext blockOpening = false

instance : (encoding : Encoding) → (value : Bytes) → Decidable (encoding.Preserves value)
  | doubleQuoted, value | singleQuoted, value =>
    inferInstanceAs (Decidable (backslashesAtEnd value % 2 = 0))
  | unquoted, value =>
    inferInstanceAs (Decidable
      ((value ≠ [] ∧ value.all isPlainByte = true) ∨ backslashesAtEnd value % 2 = 0))
  | bracedDouble, _ | bracedSingle, _ => .isTrue trivial
  | bracedTemplate, value => inferInstanceAs (Decidable (value.hasSubtext blockOpening = false))

/-- A value as written is read as one literal exactly if the encoding preserves it, and then what
is read stands for the value. -/
theorem format_readsBack (encoding : Encoding) (value : Bytes) :
    ReadsBack (encoding.format value) value (encoding.Preserves value) := by
  have even := opensEscape_eq_false_iff value
  cases encoding with
  | doubleQuoted => exact (readsBack_formatDouble value).of_iff even
  | singleQuoted => exact (readsBack_formatQuoted .single rfl value).of_iff even
  | unquoted =>
      rw [format]
      split
      next plain =>
        have ne : value ≠ [] := by simpa using plain.1
        exact (readsBack_plain ne plain.2).of_iff (iff_of_true trivial (.inl ⟨ne, plain.2⟩))
      next needsQuotes =>
        refine (readsBack_formatDouble value).of_iff (even.trans ⟨.inr, fun h => ?_⟩)
        cases h with
        | inl plain => exact absurd ⟨by simpa using plain.1, plain.2⟩ needsQuotes
        | inr even => exact even
  | bracedDouble => exact readsBack_braced rfl value
  | bracedSingle => exact readsBack_braced rfl value
  | bracedTemplate => exact readsBack_template value

theorem mixed_quotes_readBack :
    let value := utf8 "it's \"\\\\\""
    ∃ written text, parse (doubleQuoted.format value) = some (written, text) ∧
      written.decode text = value := by
  intro value
  have preserved : doubleQuoted.Preserves value := by decide
  have back := format_readsBack doubleQuoted value
  obtain ⟨⟨written, text⟩, read⟩ := Option.isSome_iff_exists.1 (back.read.2 preserved)
  have plain : Unreferenced value := ⟨by decide, by decide⟩
  exact ⟨written, text, read, back.decoded written text read plain⟩

/-- A template with an escaped `${` is taken for one that embeds an expression, and a backslash
takes the last quote along. -/
theorem written_literals_lost :
    bracedTemplate.format (utf8 "$\x7bx\x7d") = utf8 "\x7b`\\$\x7bx\x7d`\x7d" ∧
      parse (bracedTemplate.format (utf8 "$\x7bx\x7d")) = none ∧
      doubleQuoted.format (utf8 "\\") = utf8 "\"\\\"" ∧
      parse (doubleQuoted.format (utf8 "\\")) = none := by
  decide +kernel

end Encoding

end MarkupEdit
