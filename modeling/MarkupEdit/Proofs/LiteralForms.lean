import MarkupEdit.Proofs.Seams
import MarkupEdit.Proofs.TrimmedTexts

/-!
The forms of literals, each described without a scanner: what stands between two quotes, the same
in braces with white space around it, or a value without delimiters. A value is read as a literal
exactly if it has one of these forms, so an expression in braces is never taken for one.
-/

namespace MarkupEdit.Encoding

open Bytes (White)

theorem eq_of_isQuote {c : UInt8} (isQuote : Byte.isQuote c = true) :
    c = Byte.doubleQuote ∨ c = Byte.singleQuote := by
  simpa [Byte.isQuote] using isQuote

theorem quotedText_of_quotedEnd {mark : UInt8} {i : Nat} {s : Bytes}
    (ends : Scan.quotedEnd mark i s = some (i + s.length)) : QuotedText mark s.dropLast := by
  fun_induction Scan.quotedEnd mark i s with
  | case1 => cases ends
  | case2 => cases ends
  | case3 i d u ih =>
      have width : i + (Byte.backslash :: d :: u).length = i + 2 + u.length := by
        simp only [List.length_cons]
        omega
      rw [width] at ends
      cases u with
      | nil => cases ends
      | cons e u => exact .escape d (ih ends)
  | case4 i t =>
      have none : t = [] := by
        rw [List.length_cons, Option.some.injEq] at ends
        exact List.length_eq_zero_iff.1 (by omega)
      rw [none]
      exact .nil
  | case5 i c t escape other ih =>
      have width : i + (c :: t).length = i + 1 + t.length := by
        rw [List.length_cons]
        omega
      rw [width] at ends
      cases t with
      | nil => cases ends
      | cons e t => exact .byte escape other (ih ends)

/-- A template without expressions is a literal between backticks. -/
theorem quotedText_of_templateEnd {i : Nat} {s : Bytes}
    (ends : Scan.templateEnd i s = some (i + s.length)) (flat : ¬ blockOpening <:+: s) :
    QuotedText Byte.backtick s.dropLast := by
  induction s using List.twoStepInduction generalizing i with
  | nil => exact .nil
  | singleton c => exact .nil
  | cons_cons c d u ih ih' =>
      rw [blockOpening_infix_cons, not_or] at flat
      have width : i + (c :: d :: u).length = i + 1 + (d :: u).length := by
        simp only [List.length_cons]
        omega
      have width' : i + 1 + (d :: u).length = i + 2 + u.length := by
        simp only [List.length_cons]
        omega
      rw [Scan.templateEnd] at ends
      split at ends
      next escape =>
        subst escape
        rw [width, width', List.drop_one, List.tail_cons] at ends
        cases u with
        | nil =>
            rw [Scan.templateEnd] at ends
            cases ends
        | cons e u =>
            rw [blockOpening_infix_cons, not_or] at flat
            exact .escape d (ih ends flat.2.2)
      next plain =>
        split at ends
        next =>
          rw [Option.some.injEq, List.length_cons, List.length_cons] at ends
          omega
        next other =>
          rw [if_neg flat.1, width] at ends
          exact .byte plain other (ih' d ends flat.2)

/-- What stands between two quotes, or between the backticks of a template without expressions. -/
def LiteralText (mark : UInt8) (text : Bytes) : Prop :=
  QuotedText mark text ∧
    (Byte.isQuote mark = true ∨ mark = Byte.backtick ∧ ¬ blockOpening <:+: text)

theorem LiteralText.ink {mark : UInt8} {text : Bytes} (h : LiteralText mark text) :
    Bytes.Ink mark := by
  obtain ⟨-, isQuote | ⟨rfl, -⟩⟩ := h
  · exact Bytes.ink_of_isQuote isQuote
  · exact Bytes.ink_backtick

theorem markup_template {text : Bytes} (quotedText : QuotedText Byte.backtick text)
    (flat : ¬ blockOpening <:+: text) : Markup .template text := by
  induction quotedText with
  | nil => exact .templateNil
  | escape c hb ih =>
      rw [blockOpening_infix_cons, blockOpening_infix_cons, not_or, not_or] at flat
      exact .templateEscape c (ih flat.2.2)
  | byte hc hq hb ih =>
      rw [blockOpening_infix_cons, not_or] at flat
      exact .templateByte hc hq (fun dollar brace => flat.1 ⟨dollar, brace⟩) (ih flat.2)

theorem content?_of_literalText {mark : UInt8} {text : Bytes} (h : LiteralText mark text) :
    content? (quote mark text) = some text := by
  have width : 1 + (text.length + 1) = text.length + 2 := by omega
  obtain ⟨quotedText, isQuote | ⟨rfl, flat⟩⟩ := h
  · rw [content?_quote isQuote, Scan.quotedEnd_text isQuote quotedText, if_pos (by rw [width])]
  · have closed := Scan.passes_markup (markup_template quotedText flat) 1 []
    have flat' : (quote Byte.backtick text).hasSubtext blockOpening = false := by
      rwa [← Bool.not_eq_true, Bytes.hasSubtext_iff, blockOpening_infix_quote]
    rw [content?_backticks, closed, if_pos ⟨by rw [width], flat'⟩]

/-- A text is read as one literal exactly if it is one from its first byte to its last. -/
theorem content?_eq_some_iff {raw text : Bytes} :
    content? raw = some text ↔ ∃ mark, LiteralText mark text ∧ raw = quote mark text := by
  constructor
  · intro read
    rw [content?.eq_def] at read
    split at read
    next => cases read
    next mark t =>
      have width : (mark :: t).length = 1 + t.length := by rw [List.length_cons, Nat.add_comm]
      rw [Units.quotedEnd, Units.templateEnd, List.drop_zero, width] at read
      dsimp only at read
      split at read
      next isQuote =>
        split at read
        next ends =>
          cases read
          have last := (Scan.quotedEnd_endsIn ends).last
          exact ⟨mark, ⟨quotedText_of_quotedEnd ends, .inl isQuote⟩, congrArg (mark :: ·) last⟩
        next => cases read
      next =>
        split at read
        next backtick =>
          subst backtick
          split at read
          next ends =>
            cases read
            obtain ⟨ends, flat⟩ := ends
            rw [← Bool.not_eq_true, Bytes.hasSubtext_iff] at flat
            have flat' : ¬ blockOpening <:+: t := fun stands => flat (List.infix_cons stands)
            have last := (Scan.templateEnd_endsIn ends).last
            have inner : ¬ blockOpening <:+: t.dropLast := fun stands =>
              flat' (stands.trans (List.dropLast_prefix t).isInfix)
            exact ⟨Byte.backtick, ⟨quotedText_of_templateEnd ends flat', .inr ⟨rfl, inner⟩⟩,
              congrArg (Byte.backtick :: ·) last⟩
          next => cases read
        next => cases read
  · rintro ⟨mark, literal, rfl⟩
    exact content?_of_literalText literal

/-- A value in the form that is read in the given encoding as the given text. -/
inductive IsLiteral : Encoding → Bytes → Bytes → Prop where
  | doubleQuoted {text : Bytes} (ht : QuotedText Byte.doubleQuote text) :
      IsLiteral doubleQuoted text (quote Byte.doubleQuote text)
  | singleQuoted {text : Bytes} (ht : QuotedText Byte.singleQuote text) :
      IsLiteral singleQuoted text (quote Byte.singleQuote text)
  | unquoted {c : UInt8} {t : Bytes} (first : Byte.isQuote c = false) (hb : c ≠ Byte.backtick)
      (ho : c ≠ Byte.openBrace) : IsLiteral unquoted (c :: t) (c :: t)
  | bracedDouble {text lead trail : Bytes} (ht : QuotedText Byte.doubleQuote text)
      (hl : White lead) (hr : White trail) :
      IsLiteral bracedDouble text (brace (lead ++ (quote Byte.doubleQuote text ++ trail)))
  | bracedSingle {text lead trail : Bytes} (ht : QuotedText Byte.singleQuote text)
      (hl : White lead) (hr : White trail) :
      IsLiteral bracedSingle text (brace (lead ++ (quote Byte.singleQuote text ++ trail)))
  | bracedTemplate {text lead trail : Bytes} (ht : QuotedText Byte.backtick text)
      (flat : ¬ blockOpening <:+: text) (hl : White lead) (hr : White trail) :
      IsLiteral bracedTemplate text (brace (lead ++ (quote Byte.backtick text ++ trail)))

/-- White space around a literal in braces does not count. -/
theorem parse_brace_literal {mark : UInt8} {text lead trail : Bytes}
    (literal : LiteralText mark text) (hl : White lead) (hr : White trail) :
    parse (brace (lead ++ (quote mark text ++ trail))) = some (braced mark, text) := by
  have trimmed : Bytes.trim (lead ++ (quote mark text ++ trail)) = quote mark text :=
    Bytes.trim_between hl hr literal.ink literal.ink text
  rw [parse_brace_eq, trimmed, content?_of_literalText literal]
  rfl

theorem literal_of_parse_brace {inner text : Bytes} {encoding : Encoding}
    (read : parse (brace inner) = some (encoding, text)) :
    ∃ mark lead trail, LiteralText mark text ∧ White lead ∧ White trail ∧
      encoding = braced mark ∧ inner = lead ++ (quote mark text ++ trail) := by
  rw [parse_brace_eq] at read
  obtain ⟨content, found, read⟩ := Option.bind_eq_some_iff.1 read
  obtain ⟨mark, literal, same⟩ := content?_eq_some_iff.1 found
  rw [same] at read
  cases read
  obtain ⟨lead, trail, hl, hr, front, back⟩ := Bytes.trim_split inner
  refine ⟨mark, lead, trail, literal, hl, hr, rfl, ?_⟩
  rw [← same, ← back, ← front]

theorem isLiteral_quote {mark : UInt8} {text : Bytes} (isQuote : Byte.isQuote mark = true)
    (ht : QuotedText mark text) : IsLiteral (quoted mark) text (quote mark text) := by
  obtain rfl | rfl := eq_of_isQuote isQuote
  · exact .doubleQuoted ht
  · exact .singleQuoted ht

theorem isLiteral_brace {mark : UInt8} {text lead trail : Bytes} (literal : LiteralText mark text)
    (hl : White lead) (hr : White trail) :
    IsLiteral (braced mark) text (brace (lead ++ (quote mark text ++ trail))) := by
  obtain ⟨ht, isQuote | ⟨rfl, flat⟩⟩ := literal
  · obtain rfl | rfl := eq_of_isQuote isQuote
    · exact .bracedDouble ht hl hr
    · exact .bracedSingle ht hl hr
  · exact .bracedTemplate ht flat hl hr

theorem parse_isLiteral {encoding : Encoding} {text raw : Bytes}
    (literal : IsLiteral encoding text raw) : parse raw = some (encoding, text) := by
  have quotes {mark : UInt8} {w : Bytes} (isQuote : Byte.isQuote mark = true)
      (ht : QuotedText mark w) : parse (quote mark w) = some (quoted mark, w) := by
    rw [parse_quote isQuote, content?_of_literalText ⟨ht, .inl isQuote⟩, Option.map_some]
  cases literal with
  | doubleQuoted ht => exact quotes (show Byte.isQuote Byte.doubleQuote = true by rfl) ht
  | singleQuoted ht => exact quotes (show Byte.isQuote Byte.singleQuote = true by rfl) ht
  | unquoted first hb ho =>
      rw [parse.eq_def]
      dsimp only
      rw [if_neg (by rw [first]; decide), if_neg ho, if_neg hb]
  | bracedDouble ht hl hr => exact parse_brace_literal ⟨ht, .inl rfl⟩ hl hr
  | bracedSingle ht hl hr => exact parse_brace_literal ⟨ht, .inl rfl⟩ hl hr
  | bracedTemplate ht flat hl hr => exact parse_brace_literal ⟨ht, .inr ⟨rfl, flat⟩⟩ hl hr

theorem isLiteral_of_parse {encoding : Encoding} {text raw : Bytes}
    (read : parse raw = some (encoding, text)) : IsLiteral encoding text raw := by
  have whole := read
  rw [parse.eq_def] at read
  split at read
  next => cases read
  next c t =>
    split at read
    next isQuote =>
      obtain ⟨content, found, same⟩ := Option.map_eq_some_iff.1 read
      obtain ⟨mark, literal, split⟩ := content?_eq_some_iff.1 found
      obtain ⟨rfl, rfl⟩ := List.cons.inj split
      cases same
      exact isLiteral_quote isQuote literal.1
    next notQuote =>
      split at read
      next open' =>
        obtain ⟨trimmed, inner, -⟩ := Option.bind_eq_some_iff.1 read
        obtain ⟨body, braces, -⟩ := unbraced?_split inner
        rw [braces] at whole ⊢
        obtain ⟨mark, lead, trail, literal, hl, hr, rfl, rfl⟩ := literal_of_parse_brace whole
        exact isLiteral_brace literal hl hr
      next notOpen =>
        split at read
        next => cases read
        next notBacktick =>
          cases read
          exact .unquoted (Bool.eq_false_iff.2 notQuote) notBacktick notOpen

/-- Braces around something that is no literal. -/
inductive IsExpression : Bytes → Prop where
  /-- A name, a call or an object: what begins behind the white space is no quote and no
  backtick. -/
  | opened {lead s : Bytes} (hl : White lead) (start : Bytes.spaceWidth s = 0)
      (first : ∀ c, s.head? = some c → Byte.isQuote c = false ∧ c ≠ Byte.backtick) :
      IsExpression (brace (lead ++ s))
  /-- A concatenation: more than white space stands behind a literal. -/
  | continued {lead l rest : Bytes} (hl : White lead) (literal : Markup .literal l)
      (more : ¬ White rest) : IsExpression (brace (lead ++ (l ++ rest)))
  | interpolated {lead text trail : Bytes} (hl : White lead) (hr : White trail)
      (opens : blockOpening <:+: text) :
      IsExpression (brace (lead ++ (quote Byte.backtick text ++ trail)))

theorem quote_append (mark : UInt8) (text rest : Bytes) :
    quote mark text ++ rest = mark :: (text ++ mark :: rest) := by
  simp [quote]

/-- The first literal in a text has one end, so it has one rest. -/
theorem rest_of_literal {l rest text trail : Bytes} {mark : UInt8} (literal : Markup .literal l)
    (plain : LiteralText mark text) (same : l ++ rest = quote mark text ++ trail) :
    rest = trail := by
  have rests {b : Bytes} {q : UInt8} (split : b ++ q :: rest = text ++ q :: trail)
      (ends : b.length = text.length) : rest = trail :=
    (List.cons.inj (List.append_inj split ends).2).2
  rw [quote_append] at same
  cases literal with
  | @quoted q b hq hb =>
      rw [delimited_append] at same
      obtain ⟨rfl, split⟩ := List.cons.inj same
      have ended := Scan.quotedEnd_text hq hb 0 rest
      rw [split, Scan.quotedEnd_text hq plain.1, Option.some.injEq] at ended
      exact rests split (by omega)
  | @backticks b hb =>
      rw [delimited_append] at same
      obtain ⟨rfl, split⟩ := List.cons.inj same
      obtain ⟨ht, isQuote | ⟨-, flat⟩⟩ := plain
      · exact absurd isQuote (by decide)
      · have ended := Scan.passes_markup hb 0 rest
        rw [split, Scan.passes_markup (markup_template ht flat), Option.some.injEq] at ended
        exact rests split (by omega)
  | braces hb =>
      rw [delimited_append] at same
      obtain ⟨rfl, -⟩ := List.cons.inj same
      obtain ⟨-, isQuote | ⟨isBacktick, -⟩⟩ := plain
      · exact absurd isQuote (by decide)
      · exact absurd isBacktick (by decide)

theorem spaceWidth_literal {l : Bytes} (literal : Markup .literal l) (rest : Bytes) :
    Bytes.spaceWidth (l ++ rest) = 0 := by
  cases literal with
  | quoted hq hb => exact Bytes.spaceWidth_ink (Bytes.ink_of_isQuote hq) _
  | backticks hb => exact Bytes.spaceWidth_ink Bytes.ink_backtick _
  | braces hb =>
      have ink : Bytes.Ink Byte.openBrace := by decide +kernel
      exact Bytes.spaceWidth_ink ink _

/-- White space in braces counts for nothing, so what behind it is no literal is an expression. -/
theorem parse_brace_eq_none {lead s : Bytes} (hl : White lead) (start : Bytes.spaceWidth s = 0)
    (other : ∀ mark text trail, LiteralText mark text → White trail →
      s ≠ quote mark text ++ trail) : parse (brace (lead ++ s)) = none := by
  cases read : parse (brace (lead ++ s)) with
  | none => rfl
  | some literal =>
      obtain ⟨encoding, text⟩ := literal
      obtain ⟨mark, lead', trail, plain, hl', hr, -, same⟩ := literal_of_parse_brace read
      have start' : Bytes.spaceWidth (quote mark text ++ trail) = 0 :=
        Bytes.spaceWidth_ink plain.ink _
      exact absurd (hl.cancel hl' start start' same) (other mark text trail plain hr)

theorem parse_expression {raw : Bytes} (expression : IsExpression raw) : parse raw = none := by
  cases expression with
  | opened hl start first =>
      refine parse_brace_eq_none hl start fun mark text trail plain hr same => ?_
      obtain ⟨notQuote, notBacktick⟩ := first mark (by rw [same]; rfl)
      rcases plain.2 with isQuote | ⟨isBacktick, -⟩
      · rw [notQuote] at isQuote
        cases isQuote
      · exact notBacktick isBacktick
  | continued hl literal more =>
      refine parse_brace_eq_none hl (spaceWidth_literal literal _)
        fun mark text trail plain hr same => ?_
      exact more (rest_of_literal literal plain same ▸ hr)
  | @interpolated lead text' trail' hl hr' opens =>
      refine parse_brace_eq_none hl (Bytes.spaceWidth_ink Bytes.ink_backtick _)
        fun mark text trail plain hr same => ?_
      have trimmed := congrArg (fun s => Bytes.trim ([] ++ s)) same
      have outer : Bytes.trim ([] ++ (quote Byte.backtick text' ++ trail')) =
          quote Byte.backtick text' :=
        Bytes.trim_between .nil hr' Bytes.ink_backtick Bytes.ink_backtick text'
      have inner : Bytes.trim ([] ++ (quote mark text ++ trail)) = quote mark text :=
        Bytes.trim_between .nil hr plain.ink plain.ink text
      rw [outer, inner] at trimmed
      obtain ⟨rfl, behind⟩ := List.cons.inj trimmed
      have texts : text' = text := List.append_cancel_right behind
      rcases plain.2 with isQuote | ⟨-, flat⟩
      · exact absurd isQuote (by decide)
      · exact flat (texts ▸ opens)

/-- A value is read as a literal of an encoding exactly if it is written in that encoding, with
its text between the delimiters, and it is read as no literal in every other case. A name, a call,
an object, a concatenation or a template with an expression in it is none. -/
theorem parse_exactly (raw : Bytes) :
    (∀ encoding text, parse raw = some (encoding, text) ↔ IsLiteral encoding text raw) ∧
      (parse raw = none ↔ ∀ encoding text, ¬ IsLiteral encoding text raw) ∧
      (IsExpression raw → parse raw = none) := by
  have exactly (encoding : Encoding) (text : Bytes) :
      parse raw = some (encoding, text) ↔ IsLiteral encoding text raw :=
    ⟨isLiteral_of_parse, parse_isLiteral⟩
  refine ⟨exactly, ?_, parse_expression⟩
  constructor
  · intro none encoding text literal
    rw [parse_isLiteral literal] at none
    cases none
  · intro other
    cases read : parse raw with
    | none => rfl
    | some literal => exact absurd (isLiteral_of_parse read) (other _ _)

/-- A concatenation begins and ends with the quotes of a literal, and the text of a literal can end
in its own quote. -/
theorem parse_exactly_quotes :
    IsExpression (utf8 "\x7b'a' + 'b'\x7d") ∧ parse (utf8 "\x7b'a' + 'b'\x7d") = none ∧
      parse (utf8 "\x7b\u00a0'a\\''\u2003\x7d") = some (bracedSingle, utf8 "a\\'") := by
  have concatenation : IsExpression (utf8 "\x7b'a' + 'b'\x7d") := by
    have literal : Markup .literal (Byte.singleQuote :: utf8 "a" ++ [Byte.singleQuote]) :=
      .quoted rfl (.ofBytes (by decide))
    have more : ¬ White (utf8 " + 'b'") := by
      rw [← Bytes.trim_eq_nil_iff]
      decide +kernel
    exact .continued .nil literal more
  have escaped : IsLiteral bracedSingle (utf8 "a\\'") (utf8 "\x7b\u00a0'a\\''\u2003\x7d") := by
    have text : QuotedText Byte.singleQuote (utf8 "a\\'") :=
      .byte (by decide) (by decide) (.escape _ .nil)
    have wide {c : Char} (space : c ∈ Bytes.spaceChars) : White (utf8 c.toString) :=
      .ofForm (List.mem_map_of_mem space)
    exact .bracedSingle text (wide (c := '\u00a0') (by decide)) (wide (c := '\u2003') (by decide))
  exact ⟨concatenation, (parse_exactly _).2.2 concatenation, ((parse_exactly _).1 _ _).2 escaped⟩

end MarkupEdit.Encoding
