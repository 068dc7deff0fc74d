import MarkupEdit.Markup.Tag

/-!
Well-formed markup, as sets of byte strings: literals, templates and brace blocks, attribute
lists, elements and content. The parts hold one another, so they are one inductive family
indexed by the kind of part. A part is described without the text around it.
-/

namespace MarkupEdit

/-- What stands between the quotes of a literal. A backslash takes the byte behind it along. -/
inductive QuotedText (quote : UInt8) : Bytes → Prop where
  | nil : QuotedText quote []
  | escape (c : UInt8) {b : Bytes} (hb : QuotedText quote b) :
      QuotedText quote (Byte.backslash :: c :: b)
  | byte {c : UInt8} {b : Bytes} (hc : c ≠ Byte.backslash) (hq : c ≠ quote)
      (hb : QuotedText quote b) : QuotedText quote (c :: b)

/-- A letter, then bytes of names. -/
def IsTagName : Bytes → Prop
  | [] => False
  | c :: t => Byte.isLetter c = true ∧ ∀ b ∈ t, isNameByte b = true

instance : (name : Bytes) → Decidable (IsTagName name)
  | [] => .isFalse id
  | c :: t =>
    decidable_of_iff ((Byte.isLetter c && t.all isNameByte) = true) (by simp [IsTagName])

theorem IsTagName.all {name : Bytes} (hn : IsTagName name) :
    ∀ c ∈ name, isNameByte c = true := by
  cases name with
  | nil => exact hn.elim
  | cons c t =>
      intro d hd
      rcases List.mem_cons.1 hd with rfl | hd
      · simp [isNameByte, Byte.isAlphanumeric, hn.1]
      · exact hn.2 d hd

def AllBlank (gap : Bytes) : Prop := ∀ c ∈ gap, Byte.isBlank c = true

instance (gap : Bytes) : Decidable (AllBlank gap) :=
  decidable_of_iff (gap.all Byte.isBlank = true) List.all_eq_true

theorem AllBlank.nil : AllBlank [] := by decide

def tagEnding (slashed : Bool) : Bytes :=
  if slashed then [Byte.slash, Byte.greater] else [Byte.greater]

def openTagText (name attributes : Bytes) (slashed : Bool) : Bytes :=
  Byte.less :: (name ++ (attributes ++ tagEnding slashed))

def closeTagText (name gap : Bytes) : Bytes :=
  Byte.less :: Byte.slash :: (name ++ (gap ++ [Byte.greater]))

def commentText (body : Bytes) : Bytes := utf8 "<!--" ++ body ++ utf8 "-->"

/-- What stands in front of the end of a tag neither runs on the name nor makes `>` a `/>`. -/
structure Bounded (attributes : Bytes) (slashed : Bool) : Prop where
  apart : ∀ c, attributes.head? = some c → isNameByte c = false
  unslashed : slashed = false → attributes.getLast? ≠ some Byte.slash

theorem Bounded.nil (slashed : Bool) : Bounded [] slashed := ⟨nofun, fun _ => nofun⟩

/-- The kinds of parts. A literal comes with its delimiters; a template and a block are what
stands between theirs. -/
inductive Part where
  | literal
  | template
  | block
  | attributes
  | element
  | content

/-- The bytes that stand for themselves in a sequence of larger parts. -/
def Part.isPlain : Part → UInt8 → Bool
  | .block, c =>
      !(Byte.isQuote c || c == Byte.backtick || c == Byte.openBrace || c == Byte.closeBrace ||
        c == Byte.less)
  | .attributes, c =>
      !(Byte.isQuote c || c == Byte.backtick || c == Byte.openBrace || c == Byte.less ||
        c == Byte.greater)
  | .content, c => !(c == Byte.openBrace || c == Byte.less)
  | _, _ => false

/-- The markup of each kind. -/
inductive Markup : Part → Bytes → Prop where
  | quoted {quote : UInt8} {b : Bytes} (hq : Byte.isQuote quote = true)
      (hb : QuotedText quote b) : Markup .literal (quote :: b ++ [quote])
  | backticks {b : Bytes} (hb : Markup .template b) :
      Markup .literal (Byte.backtick :: b ++ [Byte.backtick])
  | braces {b : Bytes} (hb : Markup .block b) :
      Markup .literal (Byte.openBrace :: b ++ [Byte.closeBrace])
  | templateNil : Markup .template []
  | templateEscape (c : UInt8) {b : Bytes} (hb : Markup .template b) :
      Markup .template (Byte.backslash :: c :: b)
  /-- Each `${` in a template opens a block. -/
  | templateBlock {k b : Bytes} (hk : Markup .block k) (hb : Markup .template b) :
      Markup .template (Byte.dollar :: Byte.openBrace :: k ++ Byte.closeBrace :: b)
  | templateByte {c : UInt8} {b : Bytes} (hc : c ≠ Byte.backslash) (hq : c ≠ Byte.backtick)
      (hd : c = Byte.dollar → b.head? ≠ some Byte.openBrace) (hb : Markup .template b) :
      Markup .template (c :: b)
  | blockNil : Markup .block []
  | blockByte {c : UInt8} {b : Bytes} (hc : Part.block.isPlain c = true)
      (hb : Markup .block b) : Markup .block (c :: b)
  | blockLiteral {l b : Bytes} (hl : Markup .literal l) (hb : Markup .block b) :
      Markup .block (l ++ b)
  | blockElement {e b : Bytes} (he : Markup .element e) (hb : Markup .block b) :
      Markup .block (e ++ b)
  /-- A `<` in front of a byte that starts no tag is a comparison. -/
  | blockLess {c : UInt8} {b : Bytes} (hc : Byte.isLetter c = false) (hg : c ≠ Byte.greater)
      (hb : Markup .block (c :: b)) : Markup .block (Byte.less :: c :: b)
  | attributesNil : Markup .attributes []
  | attributesByte {c : UInt8} {b : Bytes} (hc : Part.attributes.isPlain c = true)
      (hb : Markup .attributes b) : Markup .attributes (c :: b)
  | attributesLiteral {l b : Bytes} (hl : Markup .literal l) (hb : Markup .attributes b) :
      Markup .attributes (l ++ b)
  | contentNil : Markup .content []
  | contentByte {c : UInt8} {b : Bytes} (hc : Part.content.isPlain c = true)
      (hb : Markup .content b) : Markup .content (c :: b)
  | contentComment {k b : Bytes} (hk : ¬ utf8 "-->" <:+: k) (hb : Markup .content b) :
      Markup .content (commentText k ++ b)
  | contentBraces {k b : Bytes} (hk : Markup .block k) (hb : Markup .content b) :
      Markup .content (Byte.openBrace :: k ++ Byte.closeBrace :: b)
  | contentElement {e b : Bytes} (he : Markup .element e) (hb : Markup .content b) :
      Markup .content (e ++ b)
  | paired {name a c gap : Bytes} (hn : IsTagName name) (hv : isVoidElement name = false)
      (ha : Markup .attributes a) (bounded : Bounded a false) (hc : Markup .content c)
      (hg : AllBlank gap) :
      Markup .element (openTagText name a false ++ c ++ closeTagText name gap)
  /-- An element that is no more than its opening tag. -/
  | single {name a : Bytes} {slashed : Bool} (hn : IsTagName name)
      (hs : (slashed || isVoidElement name) = true) (ha : Markup .attributes a)
      (bounded : Bounded a slashed) : Markup .element (openTagText name a slashed)
  | fragment {c gap : Bytes} (hc : Markup .content c) (hg : AllBlank gap) :
      Markup .element (openTagText [] [] false ++ c ++ closeTagText [] gap)

theorem QuotedText.ofBytes {quote : UInt8} {b : Bytes}
    (h : b.all (fun c => c != Byte.backslash && c != quote) = true) : QuotedText quote b := by
  induction b with
  | nil => exact .nil
  | cons c t ih =>
      simp only [List.all_cons, Bool.and_eq_true, bne_iff_ne] at h
      exact .byte h.1.1 h.1.2 (ih (by simpa using h.2))

theorem Markup.attributesBytes {u b : Bytes} (hu : ∀ c ∈ u, Part.attributes.isPlain c = true)
    (hb : Markup .attributes b) : Markup .attributes (u ++ b) := by
  induction u with
  | nil => exact hb
  | cons c t ih =>
      exact .attributesByte (hu c List.mem_cons_self)
        (ih fun d hd => hu d (List.mem_cons_of_mem c hd))

end MarkupEdit
