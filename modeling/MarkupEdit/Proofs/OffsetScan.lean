import MarkupEdit.Proofs.TagSeams

/-!
The scanners once more, as functions of an offset into the whole text that call one another at
offsets which come back from other calls. Nothing in their form makes them end: they are given a
number of nested rounds and have no answer at all when that is used up. Every call is at a later
offset, or at the same one and on a scanner of a lower rank; so a number that depends on what is
left of the text suffices, and the answers are those of the scanners that read ever shorter texts.
-/

namespace MarkupEdit.OffsetScan

/-- Goes on behind a unit, if it ends. -/
def onEnd {α β : Type} (next : α → Option (Option β)) : Option α → Option (Option β)
  | none => some none
  | some a => next a

def quoted (text : Bytes) (quote : UInt8) : Nat → Nat → Option (Option Nat)
  | 0, _ => none
  | n + 1, i =>
    match text[i]? with
    | none => some none
    | some c =>
      if c = Byte.backslash then quoted text quote n (i + 2)
      else if c = quote then some (some (i + 1))
      else quoted text quote n (i + 1)

mutual

def template (text : Bytes) : Nat → Nat → Option (Option Nat)
  | 0, _ => none
  | n + 1, i =>
    match text[i]? with
    | none => some none
    | some c =>
      if c = Byte.backslash then template text n (i + 2)
      else if c = Byte.backtick then some (some (i + 1))
      else if c = Byte.dollar ∧ text[i + 1]? = some Byte.openBrace then
        (block text n (i + 1) 0).bind (onEnd (template text n ·))
      else template text n (i + 1)

/-- Past the block of which `depth` braces are open. -/
def block (text : Bytes) : Nat → Nat → Nat → Option (Option Nat)
  | 0, _, _ => none
  | n + 1, i, depth =>
    match text[i]? with
    | none => some none
    | some c =>
      if c = Byte.openBrace then block text n (i + 1) (depth + 1)
      else if c = Byte.closeBrace then
        if depth - 1 = 0 then some (some (i + 1)) else block text n (i + 1) (depth - 1)
      else if Byte.isQuote c then
        (quoted text c n (i + 1)).bind (onEnd (block text n · depth))
      else if c = Byte.backtick then
        (template text n (i + 1)).bind (onEnd (block text n · depth))
      else if c = Byte.less then
        (element text n i).bind fun stop => block text n (stop.getD (i + 1)) depth
      else block text n (i + 1) depth

def element (text : Bytes) : Nat → Nat → Option (Option Nat)
  | 0, _ => none
  | n + 1, i =>
    if text[i + 1]? = some Byte.greater then content text n (i + 2) [] 1
    else
      (openTag text n i).bind (onEnd fun tag =>
        if tag.closesItself then some (some tag.stop) else content text n tag.stop tag.name 1)

def openTag (text : Bytes) : Nat → Nat → Option (Option OpenTag)
  | 0, _ => none
  | n + 1, i =>
    if text[i]? = some Byte.less then
      match text[i + 1]? with
      | none => some none
      | some c =>
        if Byte.isLetter c then
          let tail := (text.drop (i + 2)).takeWhile isNameByte
          (body text n (i + 2 + tail.length)).bind (onEnd fun found =>
            some (some ⟨i, c :: tail, found.1, found.2⟩))
        else some none
    else some none

/-- Where the tag ends whose name was read. -/
def body (text : Bytes) : Nat → Nat → Option (Option (Nat × Bool))
  | 0, _ => none
  | n + 1, i =>
    match text[i]? with
    | none => some none
    | some c =>
      if Byte.isQuote c then (quoted text c n (i + 1)).bind (onEnd (body text n ·))
      else if c = Byte.backtick then (template text n (i + 1)).bind (onEnd (body text n ·))
      else if c = Byte.openBrace then (block text n i 0).bind (onEnd (body text n ·))
      else if c = Byte.slash ∧ text[i + 1]? = some Byte.greater then some (some (i, true))
      else if c = Byte.greater then some (some (i, false))
      else if c = Byte.less then some none
      else body text n (i + 1)

/-- Past the closing tag of an element of which `depth` are open. -/
def content (text : Bytes) : Nat → Nat → Bytes → Nat → Option (Option Nat)
  | 0, _, _, _ => none
  | n + 1, i, name, depth =>
    match text[i]? with
    | none => some none
    | some c =>
      if c = Byte.openBrace then
        (block text n i 0).bind (onEnd (content text n · name depth))
      else if c = Byte.less then
        if text[i + 1]? = some Byte.slash then
          match CloseTag.after? (i + 2) (text.drop (i + 2)) with
          | none => content text n (i + 1) name depth
          | some close =>
            if close.name = name then
              if depth = 1 then some (some close.stop)
              else content text n close.stop name (depth - 1)
            else content text n close.stop name depth
        else if text[i + 1]? = some Byte.bang then
          onEnd (content text n · name depth) (Scan.declarationEnd (i + 2) (text.drop (i + 2)))
        else if text[i + 1]? = some Byte.greater then
          content text n (i + 2) name (if name = [] then depth + 1 else depth)
        else
          (openTag text n i).bind fun found =>
            match found with
            | none => content text n (i + 1) name depth
            | some tag =>
              content text n tag.stop name
                (if tag.name = name ∧ tag.closesItself = false then depth + 1 else depth)
      else content text n (i + 1) name depth

end

variable {text : Bytes}

theorem drop_of_none {i : Nat} (h : text[i]? = none) : text.drop i = [] :=
  List.drop_eq_nil_of_le (List.getElem?_eq_none_iff.1 h)

theorem drop_of_some {i : Nat} {c : UInt8} (h : text[i]? = some c) :
    text.drop i = c :: text.drop (i + 1) ∧ i < text.length := by
  obtain ⟨inside, rfl⟩ := List.getElem?_eq_some_iff.1 h
  exact ⟨List.drop_eq_getElem_cons inside, inside⟩

theorem quoted_ends {quote : UInt8} {n i : Nat} (h : text.length + 1 - i < n) :
    quoted text quote n i = some (Scan.quotedEnd quote i (text.drop i)) := by
  induction n generalizing i with
  | zero => cases h
  | succ n ih =>
      rw [quoted]
      cases stands : text[i]? with
      | none => rw [drop_of_none stands, Scan.quotedEnd]
      | some c =>
          obtain ⟨rest, inside⟩ := drop_of_some stands
          rw [rest, Scan.quotedEnd.eq_def]
          dsimp only
          by_cases escape : c = Byte.backslash
          · rw [if_pos escape, if_pos escape, ih (by omega)]
            cases behind : text[i + 1]? with
            | none =>
                have short := List.getElem?_eq_none_iff.1 behind
                rw [drop_of_none behind, List.drop_eq_nil_of_le (by omega), Scan.quotedEnd]
            | some d => rw [(drop_of_some behind).1]
          · rw [if_neg escape, if_neg escape]
            by_cases closing : c = quote
            · rw [if_pos closing, if_pos closing]
            · rw [if_neg closing, if_neg closing, ih (by omega)]

def elementEnd (text : Bytes) (i : Nat) : Option Nat :=
  if text[i + 1]? = some Byte.greater then Units.contentEnd text (i + 2) []
  else
    match Units.openTag? text i with
    | none => none
    | some tag =>
      if tag.closesItself then some tag.stop else Units.contentEnd text tag.stop tag.name

theorem openTag?_at {i : Nat} (h : text[i]? = some Byte.less) :
    Units.openTag? text i = Scan.openTag? i (text.drop (i + 1)) := by
  rw [Units.openTag?, (drop_of_some h).1]
  rfl

theorem elementEnd_at {i : Nat} (h : text[i]? = some Byte.less) :
    elementEnd text i = Scan.elementEnd i (text.drop (i + 1)) := by
  rw [elementEnd, openTag?_at h]
  cases next : text[i + 1]? with
  | none =>
      rw [drop_of_none next, Scan.elementEnd, Scan.openTag?]
      rfl
  | some c =>
      rw [(drop_of_some next).1, Scan.elementEnd]
      by_cases fragment : c = Byte.greater
      · rw [if_pos (congrArg some fragment), if_pos fragment]
        rfl
      · rw [if_neg (fun same => fragment (Option.some.inj same)), if_neg fragment]
        cases found : Scan.openTag? i (c :: text.drop (i + 2)) with
        | none => rfl
        | some tag =>
            have bounds := Scan.openTag?_bounds found
            dsimp only
            rw [goOn_drop text (by omega)]
            rfl

theorem bounds_openTag? {i : Nat} {tag : OpenTag} (h : Units.openTag? text i = some tag) :
    i < tag.stop ∧ tag.stop ≤ text.length := by
  rw [Units.openTag?] at h
  split at h
  · cases h
  next c t rest =>
    split at h
    · have bounds := Scan.openTag?_bounds h
      have width := congrArg List.length rest
      rw [List.length_drop, List.length_cons] at width
      omega
    · cases h

/-- With `n` rounds, each scanner ends wherever the rounds cover what is left of the text; at one
offset the scanners are ranked by which of them calls which. -/
structure Ends (text : Bytes) (n : Nat) : Prop where
  template : ∀ i, 4 * (text.length + 1 - i) < n →
    template text n i = some (Scan.templateEnd i (text.drop i))
  openTag : ∀ i, 4 * (text.length + 1 - i) < n → openTag text n i = some (Units.openTag? text i)
  element : ∀ i, 4 * (text.length + 1 - i) + 1 < n →
    element text n i = some (elementEnd text i)
  block : ∀ i depth, 4 * (text.length + 1 - i) + 2 < n →
    block text n i (depth + 1) = some (Scan.blockEnd i depth (text.drop i))
  /-- A block is entered at its own brace, of which no one is open then. -/
  entry : ∀ i, text[i]? = some Byte.openBrace → 4 * (text.length + 1 - i) + 2 < n →
    OffsetScan.block text n i 0 = some (Scan.blockEnd (i + 1) 0 (text.drop (i + 1)))
  body : ∀ i, 4 * (text.length + 1 - i) + 3 < n →
    body text n i = some (Scan.bodyEnd? i (text.drop i))
  content : ∀ i name depth, 4 * (text.length + 1 - i) + 3 < n →
    content text n i name (depth + 1) = some (Scan.contentEnd i name depth (text.drop i))

namespace Ends

variable {n : Nat} (ends : Ends text n)

include ends

theorem template_succ {i : Nat} (h : 4 * (text.length + 1 - i) < n + 1) :
    OffsetScan.template text (n + 1) i = some (Scan.templateEnd i (text.drop i)) := by
  rw [OffsetScan.template]
  cases stands : text[i]? with
  | none => rw [drop_of_none stands, Scan.templateEnd]
  | some c =>
      obtain ⟨rest, inside⟩ := drop_of_some stands
      rw [rest, Scan.templateEnd, List.head?_drop, List.drop_drop]
      dsimp only
      by_cases escape : c = Byte.backslash
      · rw [if_pos escape, if_pos escape, ends.template _ (by omega)]
      · rw [if_neg escape, if_neg escape]
        by_cases closing : c = Byte.backtick
        · rw [if_pos closing, if_pos closing]
        · rw [if_neg closing, if_neg closing]
          by_cases opening : c = Byte.dollar ∧ text[i + 1]? = some Byte.openBrace
          · rw [if_pos opening, if_pos opening, ends.entry _ opening.2 (by omega),
              Option.bind_some]
            cases found : Scan.blockEnd (i + 2) 0 (text.drop (i + 1 + 1)) with
            | none => rfl
            | some j =>
                have bounds := Scan.blockEnd_bounds found
                dsimp only
                rw [goOn_drop text (by omega), onEnd, ends.template _ (by omega)]
          · rw [if_neg opening, if_neg opening, ends.template _ (by omega)]

theorem block_succ {i depth : Nat} (h : 4 * (text.length + 1 - i) + 2 < n + 1) :
    OffsetScan.block text (n + 1) i (depth + 1) = some (Scan.blockEnd i depth (text.drop i)) := by
  rw [OffsetScan.block]
  cases stands : text[i]? with
  | none => rw [drop_of_none stands, Scan.blockEnd]
  | some c =>
      obtain ⟨rest, inside⟩ := drop_of_some stands
      rw [rest, Scan.blockEnd]
      dsimp only
      by_cases opening : c = Byte.openBrace
      · rw [if_pos opening, if_pos opening, ends.block _ _ (by omega)]
      · rw [if_neg opening, if_neg opening]
        by_cases closing : c = Byte.closeBrace
        · rw [if_pos closing, if_pos closing, Nat.add_sub_cancel]
          by_cases last : depth = 0
          · rw [if_pos last, if_pos last]
          · obtain ⟨left, rfl⟩ := Nat.exists_eq_succ_of_ne_zero last
            rw [if_neg last, if_neg last, ends.block _ _ (by omega)]
            rfl
        · rw [if_neg closing, if_neg closing]
          by_cases quote : Byte.isQuote c = true
          · rw [if_pos quote, if_pos quote, quoted_ends (by omega), Option.bind_some]
            cases found : Scan.quotedEnd c (i + 1) (text.drop (i + 1)) with
            | none => rfl
            | some j =>
                have bounds := Scan.quotedEnd_bounds found
                dsimp only
                rw [goOn_drop text (by omega), onEnd, ends.block _ _ (by omega)]
          · rw [if_neg quote, if_neg quote]
            by_cases backtick : c = Byte.backtick
            · rw [if_pos backtick, if_pos backtick, ends.template _ (by omega),
                Option.bind_some]
              cases found : Scan.templateEnd (i + 1) (text.drop (i + 1)) with
              | none => rfl
              | some j =>
                  have bounds := Scan.templateEnd_bounds found
                  dsimp only
                  rw [goOn_drop text (by omega), onEnd, ends.block _ _ (by omega)]
            · rw [if_neg backtick, if_neg backtick]
              by_cases less : c = Byte.less
              · rw [if_pos less, if_pos less, ends.element _ (by omega), Option.bind_some,
                  elementEnd_at (less ▸ stands)]
                cases found : Scan.elementEnd i (text.drop (i + 1)) with
                | none =>
                    rw [Option.getD_none]
                    exact ends.block _ _ (by omega)
                | some j =>
                    have bounds := Scan.elementEnd_bounds found
                    dsimp only
                    rw [goOn_drop text (by omega), Option.getD_some, ends.block _ _ (by omega)]
              · rw [if_neg less, if_neg less, ends.block _ _ (by omega)]

theorem entry_succ {i : Nat} (stands : text[i]? = some Byte.openBrace)
    (h : 4 * (text.length + 1 - i) + 2 < n + 1) :
    OffsetScan.block text (n + 1) i 0 =
      some (Scan.blockEnd (i + 1) 0 (text.drop (i + 1))) := by
  have inside := (drop_of_some stands).2
  rw [OffsetScan.block, stands]
  dsimp only
  rw [if_pos rfl, ends.block _ _ (by omega)]

theorem openTag_succ {i : Nat} (h : 4 * (text.length + 1 - i) < n + 1) :
    OffsetScan.openTag text (n + 1) i = some (Units.openTag? text i) := by
  rw [OffsetScan.openTag, Units.openTag?]
  cases stands : text[i]? with
  | none =>
      rw [drop_of_none stands]
      rfl
  | some c =>
      obtain ⟨rest, inside⟩ := drop_of_some stands
      rw [rest]
      dsimp only
      by_cases less : c = Byte.less
      · rw [if_pos (congrArg some less), if_pos less]
        cases next : text[i + 1]? with
        | none =>
            rw [drop_of_none next, Scan.openTag?]
        | some d =>
            have tail : text.drop (i + 1) = d :: text.drop (i + 2) := (drop_of_some next).1
            rw [tail, Scan.openTag?]
            dsimp only
            by_cases letter : Byte.isLetter d = true
            · rw [if_pos letter, if_pos letter, ends.body _ (by omega), Option.bind_some,
                List.drop_drop]
              cases Scan.bodyEnd? _ _ with
              | none => rfl
              | some found => rfl
            · rw [if_neg letter, if_neg letter]
      · rw [if_neg (fun same => less (Option.some.inj same)), if_neg less]

theorem element_succ {i : Nat} (h : 4 * (text.length + 1 - i) + 1 < n + 1) :
    OffsetScan.element text (n + 1) i = some (elementEnd text i) := by
  rw [OffsetScan.element, elementEnd]
  by_cases fragment : text[i + 1]? = some Byte.greater
  · have inside := (drop_of_some fragment).2
    rw [if_pos fragment, if_pos fragment, ends.content _ _ _ (by omega), Units.contentEnd]
  · rw [if_neg fragment, if_neg fragment, ends.openTag _ (by omega), Option.bind_some]
    cases found : Units.openTag? text i with
    | none => rfl
    | some tag =>
        have bounds := bounds_openTag? found
        rw [onEnd]
        dsimp only
        by_cases single : tag.closesItself = true
        · rw [if_pos single, if_pos single]
        · rw [if_neg single, if_neg single, ends.content _ _ _ (by omega), Units.contentEnd]

theorem body_succ {i : Nat} (h : 4 * (text.length + 1 - i) + 3 < n + 1) :
    OffsetScan.body text (n + 1) i = some (Scan.bodyEnd? i (text.drop i)) := by
  rw [OffsetScan.body]
  cases stands : text[i]? with
  | none => rw [drop_of_none stands, Scan.bodyEnd?]
  | some c =>
      obtain ⟨rest, inside⟩ := drop_of_some stands
      rw [rest, Scan.bodyEnd?, List.head?_drop]
      dsimp only
      by_cases quote : Byte.isQuote c = true
      · rw [if_pos quote, if_pos quote, quoted_ends (by omega), Option.bind_some]
        cases found : Scan.quotedEnd c (i + 1) (text.drop (i + 1)) with
        | none => rfl
        | some j =>
            have bounds := Scan.quotedEnd_bounds found
            dsimp only
            rw [goOn_drop text (by omega), onEnd, ends.body _ (by omega)]
      · rw [if_neg quote, if_neg quote]
        by_cases backtick : c = Byte.backtick
        · rw [if_pos backtick, if_pos backtick, ends.template _ (by omega), Option.bind_some]
          cases found : Scan.templateEnd (i + 1) (text.drop (i + 1)) with
          | none => rfl
          | some j =>
              have bounds := Scan.templateEnd_bounds found
              dsimp only
              rw [goOn_drop text (by omega), onEnd, ends.body _ (by omega)]
        · rw [if_neg backtick, if_neg backtick]
          by_cases brace : c = Byte.openBrace
          · rw [if_pos brace, if_pos brace, ends.entry _ (brace ▸ stands) (by omega),
              Option.bind_some]
            cases found : Scan.blockEnd (i + 1) 0 (text.drop (i + 1)) with
            | none => rfl
            | some j =>
                have bounds := Scan.blockEnd_bounds found
                dsimp only
                rw [goOn_drop text (by omega), onEnd, ends.body _ (by omega)]
          · rw [if_neg brace, if_neg brace]
            by_cases slash : c = Byte.slash ∧ text[i + 1]? = some Byte.greater
            · rw [if_pos slash, if_pos slash]
            · rw [if_neg slash, if_neg slash]
              by_cases greater : c = Byte.greater
              · rw [if_pos greater, if_pos greater]
              · rw [if_neg greater, if_neg greater]
                by_cases less : c = Byte.less
                · rw [if_pos less, if_pos less]
                · rw [if_neg less, if_neg less, ends.body _ (by omega)]

theorem content_succ {i : Nat} {name : Bytes} {depth : Nat}
    (h : 4 * (text.length + 1 - i) + 3 < n + 1) :
    OffsetScan.content text (n + 1) i name (depth + 1) =
      some (Scan.contentEnd i name depth (text.drop i)) := by
  rw [OffsetScan.content]
  cases stands : text[i]? with
  | none => rw [drop_of_none stands, Scan.contentEnd]
  | some c =>
      obtain ⟨rest, inside⟩ := drop_of_some stands
      rw [rest, Scan.contentEnd, List.head?_drop, List.drop_drop]
      dsimp only
      by_cases brace : c = Byte.openBrace
      · rw [if_pos brace, if_pos brace, ends.entry _ (brace ▸ stands) (by omega),
          Option.bind_some]
        cases found : Scan.blockEnd (i + 1) 0 (text.drop (i + 1)) with
        | none => rfl
        | some j =>
            have bounds := Scan.blockEnd_bounds found
            dsimp only
            rw [goOn_drop text (by omega), onEnd, ends.content _ _ _ (by omega)]
      · rw [if_neg brace, if_neg brace]
        by_cases less : c = Byte.less
        · rw [if_pos less, if_pos less]
          by_cases slash : text[i + 1]? = some Byte.slash
          · rw [if_pos slash, if_pos slash]
            cases found : CloseTag.after? (i + 2) (text.drop (i + 2)) with
            | none => exact ends.content _ _ _ (by omega)
            | some close =>
                have bounds := Scan.closeTag_bounds found
                dsimp only
                rw [goOn_drop text (by omega)]
                by_cases same : close.name = name
                · rw [if_pos same]
                  by_cases last : depth = 0
                  · rw [if_pos (by omega), if_pos ⟨same, last⟩]
                  · obtain ⟨left, rfl⟩ := Nat.exists_eq_succ_of_ne_zero last
                    rw [if_neg (by omega), if_neg (fun both => last both.2), if_pos same]
                    exact ends.content _ _ _ (by omega)
                · rw [if_neg same, if_neg (fun both => same both.1), if_neg same]
                  exact ends.content _ _ _ (by omega)
          · rw [if_neg slash, if_neg slash]
            by_cases bang : text[i + 1]? = some Byte.bang
            · rw [if_pos bang, if_pos bang]
              cases found : Scan.declarationEnd (i + 2) (text.drop (i + 2)) with
              | none => rfl
              | some j =>
                  have bounds := Scan.declarationEnd_bounds found
                  dsimp only
                  rw [goOn_drop text (by omega), onEnd, ends.content _ _ _ (by omega)]
            · rw [if_neg bang, if_neg bang]
              by_cases greater : text[i + 1]? = some Byte.greater
              · rw [if_pos greater, if_pos greater]
                by_cases fragment : name = []
                · rw [if_pos fragment, if_pos fragment, ends.content _ _ _ (by omega)]
                · rw [if_neg fragment, if_neg fragment, ends.content _ _ _ (by omega)]
              · rw [if_neg greater, if_neg greater, ends.openTag _ (by omega),
                  Option.bind_some, openTag?_at (less ▸ stands)]
                cases found : Scan.openTag? i (text.drop (i + 1)) with
                | none => exact ends.content _ _ _ (by omega)
                | some tag =>
                    have bounds := Scan.openTag?_bounds found
                    dsimp only
                    rw [goOn_drop text (by omega)]
                    by_cases deeper : tag.name = name ∧ tag.closesItself = false
                    · rw [if_pos deeper, if_pos deeper, ends.content _ _ _ (by omega)]
                    · rw [if_neg deeper, if_neg deeper, ends.content _ _ _ (by omega)]
        · rw [if_neg less, if_neg less, ends.content _ _ _ (by omega)]

end Ends

theorem ends (text : Bytes) (n : Nat) : Ends text n := by
  induction n with
  | zero =>
      constructor
      all_goals
        intros
        omega
  | succ n ih => exact {
      template := fun i h => ih.template_succ h
      openTag := fun i h => ih.openTag_succ h
      element := fun i h => ih.element_succ h
      block := fun i depth h => ih.block_succ h
      entry := fun i stands h => ih.entry_succ stands h
      body := fun i h => ih.body_succ h
      content := fun i name depth h => ih.content_succ h }

end MarkupEdit.OffsetScan
