import MarkupEdit.Markup.Scan.Bounds
import MarkupEdit.Proofs.Grammar

/-!
What each scanner does with one part of markup in front of more text: a literal, a tag, a
comment. Of a template, a block or a list of attributes inside the part it is taken for granted
here that its own scanner passes it.
-/

namespace MarkupEdit.Scan

theorem goOn_append (i : Nat) (u s : Bytes) : goOn i (i + u.length) (u ++ s) = s := by
  simp [goOn]

theorem goOn_cons {i j : Nat} (h : i < j) (c : UInt8) (s : Bytes) :
    goOn i j (c :: s) = goOn (i + 1) j s := by
  rw [goOn, show j - i = j - (i + 1) + 1 by omega, List.drop_succ_cons]

theorem goOn_close (i : Nat) (u : Bytes) (c : UInt8) (s : Bytes) :
    goOn i (i + (u.length + 1)) (u ++ c :: s) = s := by
  simpa using goOn_append i (u ++ [c]) s

theorem quotedEnd_text {quote : UInt8} {b : Bytes} (hq : Byte.isQuote quote = true)
    (hb : QuotedText quote b) (i : Nat) (rest : Bytes) :
    quotedEnd quote i (b ++ quote :: rest) = some (i + (b.length + 1)) := by
  have notEscape : quote ≠ Byte.backslash := by
    rintro rfl
    exact absurd hq (by decide)
  induction hb generalizing i with
  | nil =>
      rw [List.nil_append, quotedEnd.eq_def]
      simp [notEscape]
  | escape c hb ih =>
      rw [List.cons_append, List.cons_append, quotedEnd.eq_def]
      simp only [if_true, ih, List.length_cons, Option.some.injEq]
      omega
  | byte hc hne hb ih =>
      rw [List.cons_append, quotedEnd.eq_def]
      simp only [hc, hne, if_false, ih, List.length_cons, Option.some.injEq]
      omega

structure PassesLiteral (l : Bytes) : Prop where
  block : ∀ i depth rest, blockEnd i depth (l ++ rest) = blockEnd (i + l.length) depth rest
  body : ∀ i rest, bodyEnd? i (l ++ rest) = bodyEnd? (i + l.length) rest

theorem passes_quoted {quote : UInt8} {b : Bytes} (hq : Byte.isQuote quote = true)
    (hb : QuotedText quote b) : PassesLiteral (quote :: b ++ [quote]) where
  block i depth rest := by
    have notOpen : quote ≠ Byte.openBrace := by rintro rfl; exact absurd hq (by decide)
    have notClose : quote ≠ Byte.closeBrace := by rintro rfl; exact absurd hq (by decide)
    rw [List.append_assoc, List.cons_append, List.singleton_append, blockEnd, if_neg notOpen,
      if_neg notClose, if_pos hq, quotedEnd_text hq hb]
    simp only [goOn_close]
    congr 1
    simp only [List.cons_append, List.length_cons, List.length_append, List.length_nil]
    omega
  body i rest := by
    rw [List.append_assoc, List.cons_append, List.singleton_append, bodyEnd?, if_pos hq,
      quotedEnd_text hq hb]
    simp only [goOn_close]
    congr 1
    simp only [List.cons_append, List.length_cons, List.length_append, List.length_nil]
    omega

theorem passes_backticks {b : Bytes}
    (hb : ∀ i rest, templateEnd i (b ++ Byte.backtick :: rest) = some (i + (b.length + 1))) :
    PassesLiteral (Byte.backtick :: b ++ [Byte.backtick]) where
  block i depth rest := by
    rw [List.append_assoc, List.cons_append, List.singleton_append, blockEnd,
      if_neg (by decide), if_neg (by decide), if_neg (by decide), if_pos rfl, hb]
    simp only [goOn_close]
    congr 1
    simp only [List.cons_append, List.length_cons, List.length_append, List.length_nil]
    omega
  body i rest := by
    rw [List.append_assoc, List.cons_append, List.singleton_append, bodyEnd?,
      if_neg (by decide), if_pos rfl, hb]
    simp only [goOn_close]
    congr 1
    simp only [List.cons_append, List.length_cons, List.length_append, List.length_nil]
    omega

theorem blockEnd_closed {b : Bytes}
    (hb : ∀ i depth rest, blockEnd i depth (b ++ rest) = blockEnd (i + b.length) depth rest)
    (i : Nat) (rest : Bytes) :
    blockEnd i 0 (b ++ Byte.closeBrace :: rest) = some (i + (b.length + 1)) := by
  rw [hb, blockEnd, if_neg (by decide), if_pos rfl, if_pos rfl]
  rfl

theorem passes_braces {b : Bytes}
    (hb : ∀ i depth rest, blockEnd i depth (b ++ rest) = blockEnd (i + b.length) depth rest) :
    PassesLiteral (Byte.openBrace :: b ++ [Byte.closeBrace]) where
  block i depth rest := by
    rw [List.append_assoc, List.cons_append, List.singleton_append, blockEnd, if_pos rfl, hb,
      blockEnd, if_neg (by decide), if_pos rfl, if_neg (Nat.succ_ne_zero depth)]
    simp only [List.cons_append, List.length_cons, List.length_append, List.length_nil,
      Nat.add_sub_cancel]
    congr 1
    omega
  body i rest := by
    rw [List.append_assoc, List.cons_append, List.singleton_append, bodyEnd?,
      if_neg (by decide), if_neg (by decide), if_pos rfl, blockEnd_closed hb]
    simp only [goOn_close]
    congr 1
    simp only [List.cons_append, List.length_cons, List.length_append, List.length_nil]
    omega

theorem takeWhile_append_stop {p : UInt8 → Bool} {u s : Bytes} (hu : ∀ c ∈ u, p c = true)
    (hs : ∀ c, s.head? = some c → p c = false) : (u ++ s).takeWhile p = u := by
  rw [List.takeWhile_append_of_pos hu]
  cases s with
  | nil => simp
  | cons c s => simp [hs c rfl]

theorem not_isNameByte_of_isBlank {c : UInt8} (h : Byte.isBlank c = true) :
    isNameByte c = false := by
  simp only [Byte.isBlank, Bool.or_eq_true, beq_iff_eq] at h
  rcases h with (((rfl | rfl) | rfl) | rfl) | rfl <;> decide

theorem head?_tagEnding (slashed : Bool) (rest : Bytes) :
    (tagEnding slashed ++ rest).head? =
      some (if slashed then Byte.slash else Byte.greater) := by
  cases slashed <;> rfl

theorem bodyEnd?_tagEnding (slashed : Bool) (i : Nat) (rest : Bytes) :
    bodyEnd? i (tagEnding slashed ++ rest) = some (i, slashed) := by
  cases slashed with
  | true =>
      change bodyEnd? i (Byte.slash :: Byte.greater :: rest) = _
      rw [bodyEnd?, if_neg (by decide), if_neg (by decide), if_neg (by decide),
        if_pos ⟨rfl, rfl⟩]
  | false =>
      change bodyEnd? i (Byte.greater :: rest) = _
      rw [bodyEnd?, if_neg (by decide), if_neg (by decide), if_neg (by decide),
        if_neg (by rintro ⟨h, -⟩; exact absurd h (by decide)), if_pos rfl]

/-- Attributes are passed unless their last byte joins `>` to a `/>`. -/
def PassesBody (a : Bytes) : Prop :=
  ∀ i rest, (a.getLast? = some Byte.slash → rest.head? ≠ some Byte.greater) →
    bodyEnd? i (a ++ rest) = bodyEnd? (i + a.length) rest

theorem bodyEnd?_bounded {a : Bytes} {slashed : Bool} (ha : PassesBody a)
    (bounded : Bounded a slashed) (i : Nat) (rest : Bytes) :
    bodyEnd? i (a ++ (tagEnding slashed ++ rest)) = some (i + a.length, slashed) := by
  rw [ha, bodyEnd?_tagEnding]
  intro last
  rw [head?_tagEnding]
  cases slashed with
  | true => decide
  | false => exact absurd last (bounded.unslashed rfl)

theorem head?_bounded {a : Bytes} {slashed : Bool} (bounded : Bounded a slashed)
    (rest : Bytes) {c : UInt8} (h : (a ++ (tagEnding slashed ++ rest)).head? = some c) :
    isNameByte c = false := by
  cases a with
  | nil =>
      rw [List.nil_append, head?_tagEnding] at h
      cases slashed <;> cases h <;> decide
  | cons d a => exact bounded.apart c h

theorem openTag?_text {name a : Bytes} {slashed : Bool} (hn : IsTagName name)
    (ha : PassesBody a) (bounded : Bounded a slashed) (i : Nat) (rest : Bytes) :
    openTag? i (name ++ (a ++ (tagEnding slashed ++ rest))) =
      some ⟨i, name, i + 1 + name.length + a.length, slashed⟩ := by
  cases name with
  | nil => exact hn.elim
  | cons c t =>
      have run : (t ++ (a ++ (tagEnding slashed ++ rest))).takeWhile isNameByte = t :=
        takeWhile_append_stop hn.2 fun d hd => head?_bounded bounded rest hd
      rw [List.cons_append, openTag?, if_pos hn.1]
      simp only [run, List.drop_left, bodyEnd?_bounded ha bounded, Option.some.injEq,
        OpenTag.mk.injEq, List.length_cons, true_and, and_true]
      omega

theorem closeTag_text {name gap : Bytes} (hn : ∀ c ∈ name, isNameByte c = true)
    (hg : AllBlank gap) (i : Nat) (rest : Bytes) :
    CloseTag.after? i (name ++ (gap ++ Byte.greater :: rest)) =
      some ⟨name, i + name.length + gap.length + 1⟩ := by
  have nameRun : (name ++ (gap ++ Byte.greater :: rest)).takeWhile isNameByte = name := by
    apply takeWhile_append_stop hn
    intro c hc
    cases gap with
    | nil => cases hc; decide
    | cons d gap =>
        cases hc
        exact not_isNameByte_of_isBlank (hg c List.mem_cons_self)
  have gapRun : (gap ++ Byte.greater :: rest).takeWhile Byte.isBlank = gap := by
    apply takeWhile_append_stop hg
    intro c hc
    cases hc
    decide
  simp only [CloseTag.after?, nameRun, List.drop_left, gapRun, if_true]

theorem head?_cons_ne {c d : UInt8} (h : c ≠ d) (t : Bytes) : (c :: t).head? ≠ some d := by
  simpa using h

theorem stop_openTagText (name a : Bytes) (slashed : Bool) (i : Nat) :
    (⟨i, name, i + 1 + name.length + a.length, slashed⟩ : OpenTag).stop =
      i + (openTagText name a slashed).length := by
  cases slashed <;> simp [OpenTag.stop, openTagText, tagEnding] <;> omega

theorem openTagText_append (name a : Bytes) (slashed : Bool) (rest : Bytes) :
    openTagText name a slashed ++ rest =
      Byte.less :: (name ++ (a ++ (tagEnding slashed ++ rest))) := by
  simp [openTagText]

theorem goOn_openTagText (name a : Bytes) (slashed : Bool) (i : Nat) (rest : Bytes) :
    goOn (i + 1) (i + (openTagText name a slashed).length)
      (name ++ (a ++ (tagEnding slashed ++ rest))) = rest := by
  have later : i + (openTagText name a slashed).length =
      i + 1 + (name ++ (a ++ tagEnding slashed)).length := by
    simp only [openTagText, List.length_cons]
    omega
  have whole : name ++ (a ++ (tagEnding slashed ++ rest)) =
      (name ++ (a ++ tagEnding slashed)) ++ rest := by
    simp only [List.append_assoc]
  rw [later, whole, goOn_append]

theorem head?_tagName {name : Bytes} (hn : IsTagName name) (s : Bytes) {m : UInt8}
    (hm : Byte.isLetter m = false) : (name ++ s).head? ≠ some m := by
  cases name with
  | nil => exact hn.elim
  | cons c t =>
      intro h
      cases h
      exact absurd hn.1 (by simp [hm])

theorem contentEnd_openTagText {name a : Bytes} {slashed : Bool} (hn : IsTagName name)
    (ha : PassesBody a) (bounded : Bounded a slashed) (i : Nat) (sought : Bytes)
    (depth : Nat) (rest : Bytes) :
    contentEnd i sought depth (openTagText name a slashed ++ rest) =
      contentEnd (i + (openTagText name a slashed).length) sought
        (if name = sought ∧ (slashed || isVoidElement name) = false then depth + 1 else depth)
        rest := by
  rw [openTagText_append, contentEnd, if_neg (by decide), if_pos rfl,
    if_neg (head?_tagName hn _ (by decide)), if_neg (head?_tagName hn _ (by decide)),
    if_neg (head?_tagName hn _ (by decide)), openTag?_text hn ha bounded]
  simp only [stop_openTagText, goOn_openTagText]
  rfl

theorem elementEnd_openTagText {name a : Bytes} {slashed : Bool} (hn : IsTagName name)
    (ha : PassesBody a) (bounded : Bounded a slashed) (i : Nat) (rest : Bytes) :
    elementEnd i (name ++ (a ++ (tagEnding slashed ++ rest))) =
      if slashed || isVoidElement name then some (i + (openTagText name a slashed).length)
      else contentEnd (i + (openTagText name a slashed).length) name 0 rest := by
  have opened := openTag?_text hn ha bounded i rest
  have behind := goOn_openTagText name a slashed i rest
  have notGreater := head?_tagName hn (a ++ (tagEnding slashed ++ rest))
    (show Byte.isLetter Byte.greater = false by decide)
  cases text : name ++ (a ++ (tagEnding slashed ++ rest)) with
  | nil => simp [text, openTag?] at opened
  | cons c t =>
      rw [text] at opened behind notGreater
      have wide : i + 1 < i + (openTagText name a slashed).length := by
        have := openTag?_bounds opened
        rw [stop_openTagText] at this
        exact this.1
      rw [goOn_cons wide] at behind
      rw [elementEnd, if_neg (by simpa using notGreater), opened]
      simp only [OpenTag.closesItself, stop_openTagText, behind]

theorem elementEnd_openFragment (i : Nat) (rest : Bytes) :
    elementEnd i (Byte.greater :: rest) = contentEnd (i + 2) [] 0 rest := by
  rw [elementEnd, if_pos rfl]

theorem contentEnd_closeTagText {name gap : Bytes} (hn : ∀ c ∈ name, isNameByte c = true)
    (hg : AllBlank gap) (i : Nat) (sought : Bytes) (depth : Nat) (rest : Bytes) :
    contentEnd i sought depth (closeTagText name gap ++ rest) =
      if name = sought ∧ depth = 0 then some (i + (closeTagText name gap).length)
      else contentEnd (i + (closeTagText name gap).length) sought
        (if name = sought then depth - 1 else depth) rest := by
  have split : closeTagText name gap ++ rest =
      Byte.less :: Byte.slash :: (name ++ (gap ++ Byte.greater :: rest)) := by
    simp [closeTagText]
  have width : (closeTagText name gap).length = 2 + name.length + gap.length + 1 := by
    simp [closeTagText]
    omega
  rw [split, contentEnd, if_neg (by decide), if_pos rfl, if_pos List.head?_cons,
    List.drop_one, List.tail_cons, closeTag_text hn hg]
  simp only [width]
  have later : i + 2 + name.length + gap.length + 1 =
      i + 1 + (Byte.slash :: (name ++ (gap ++ [Byte.greater]))).length := by
    simp
    omega
  have behind : goOn (i + 1) (i + 2 + name.length + gap.length + 1)
      (Byte.slash :: (name ++ (gap ++ Byte.greater :: rest))) = rest := by
    rw [later, show Byte.slash :: (name ++ (gap ++ Byte.greater :: rest)) =
      (Byte.slash :: (name ++ (gap ++ [Byte.greater]))) ++ rest by simp, goOn_append]
  rw [behind, show i + 2 + name.length + gap.length + 1 =
    i + (2 + name.length + gap.length + 1) by omega]

theorem contentEnd_openFragment (i : Nat) (sought : Bytes) (depth : Nat) (rest : Bytes) :
    contentEnd i sought depth (openTagText [] [] false ++ rest) =
      contentEnd (i + 2) sought (if sought = [] then depth + 1 else depth) rest := by
  change contentEnd i sought depth (Byte.less :: Byte.greater :: rest) = _
  rw [contentEnd, if_neg (by decide), if_pos rfl, if_neg (head?_cons_ne (by decide) _),
    if_neg (head?_cons_ne (by decide) _), if_pos List.head?_cons]
  rfl

theorem indexFrom?_commentClose {k : Bytes} (hk : ¬ utf8 "-->" <:+: k) (i : Nat)
    (rest : Bytes) :
    Bytes.indexFrom? (utf8 "-->") i (k ++ (utf8 "-->" ++ rest)) = some (i + k.length) := by
  have mark : utf8 "-->" = [Byte.hyphen, Byte.hyphen, Byte.greater] := rfl
  have distinct : Byte.greater ≠ Byte.hyphen := by decide
  induction k generalizing i with
  | nil => simp [mark, Bytes.indexFrom?]
  | cons c t ih =>
      have notHere : ¬ (utf8 "-->").isPrefixOf (c :: (t ++ (utf8 "-->" ++ rest))) := by
        rw [List.isPrefixOf_iff_prefix]
        intro here
        -- Two bytes are too few to hold the mark, and it does not overlap itself.
        rcases t with _ | ⟨d, _ | ⟨e, t⟩⟩
        · exact absurd here (by simp [mark, distinct])
        · exact absurd here (by simp [mark, distinct])
        · refine hk (List.IsPrefix.isInfix ?_)
          simpa [mark] using here
      have inner : ¬ utf8 "-->" <:+: t := fun h => hk (List.infix_cons h)
      rw [List.cons_append, Bytes.indexFrom?, if_neg notHere, ih inner]
      simp only [List.length_cons, Option.some.injEq]
      omega

theorem commentText_append (k rest : Bytes) :
    commentText k ++ rest =
      Byte.less :: Byte.bang :: (utf8 "--" ++ (k ++ (utf8 "-->" ++ rest))) := by
  simp only [commentText, List.append_assoc]
  rfl

theorem declarationEnd_commentText {k : Bytes} (hk : ¬ utf8 "-->" <:+: k) (i : Nat)
    (rest : Bytes) :
    declarationEnd (i + 2) (utf8 "--" ++ (k ++ (utf8 "-->" ++ rest))) =
      some (i + (commentText k).length) := by
  have tail : (utf8 "--" ++ (k ++ (utf8 "-->" ++ rest))).drop 2 = k ++ (utf8 "-->" ++ rest) := rfl
  rw [declarationEnd, if_pos (List.isPrefixOf_iff_prefix.2 (List.prefix_append _ _)), tail,
    indexFrom?_commentClose hk, Option.map_some, commentText, List.length_append,
    List.length_append]
  change some (i + 4 + k.length + 3) = some (i + (4 + k.length + 3))
  simp only [Nat.add_assoc]

theorem contentEnd_commentText {k : Bytes} (hk : ¬ utf8 "-->" <:+: k) (i : Nat)
    (sought : Bytes) (depth : Nat) (rest : Bytes) :
    contentEnd i sought depth (commentText k ++ rest) =
      contentEnd (i + (commentText k).length) sought depth rest := by
  have behind : goOn (i + 1) (i + (commentText k).length)
      (Byte.bang :: (utf8 "--" ++ (k ++ (utf8 "-->" ++ rest)))) = rest := by
    have whole := goOn_append i (commentText k) rest
    have wide : 0 < (commentText k).length := Nat.zero_lt_succ _
    rwa [commentText_append, goOn_cons (by omega)] at whole
  rw [commentText_append, contentEnd, if_neg (by decide), if_pos rfl,
    if_neg (head?_cons_ne (by decide) _), if_pos List.head?_cons, List.drop_one,
    List.tail_cons, declarationEnd_commentText hk]
  simp only [behind]

end MarkupEdit.Scan
